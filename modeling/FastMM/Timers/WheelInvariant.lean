/-
  Timers/WheelInvariant.lean --- the wheel's invariant, and that its calls keep it.

  Source: `include/fastmm/core/timer_wheel.hpp` (`link`, `unlink`, `add`, `cancel`,
  `release`, `next_expiry`).

  The invariant holds between calls and inside `poll`, where a slot is being walked
  and a timer may be firing.  Its parameters say where the walk is: the millisecond
  the walk goes up to, the slot it is in, the timers of that slot it has still to
  meet and the slots behind it.  Between calls the walk is at its end: nothing is left.
-/
import FastMM.Timers.TimerWheel
set_option autoImplicit false

namespace FastMM

open Foundation Function List Pool

namespace TimerWheel

variable {kMaxTimers : Nat} {w : TimerWheel kMaxTimers}

/-! ## Milliseconds and slots -/

theorem msOf_mono {a b : Timestamp} (h : a ≤ b) : msOf a ≤ msOf b :=
  Int.tdiv_le_tdiv (by decide) h

/-- Any `kSlots` milliseconds in a row meet every slot. -/
theorem exists_slotOf_eq (ms start : Int) :
    ∃ m, start ≤ m ∧ m < start + kSlots ∧ slotOf ms = slotOf m := by
  refine ⟨start + (ms - start) % 4096, ?_, ?_, ?_⟩
  · omega
  · unfold kSlots
    omega
  · unfold slotOf kSlots
    congr 1
    omega

theorem beforeSome_iff {t : Int} {u : Option Int} :
    beforeSome t u = true ↔ ∀ x, u = some x → t < x := by
  cases u with
  | none => simp [beforeSome]
  | some x => simp [beforeSome]

/-! ## The lists of a wheel -/

/-- The list the timer of a pool slot is on. -/
def owner (w : TimerWheel kMaxTimers) (x : Nat) : Option TimerList :=
  match w.pool.slots x with
  | some t => if t.list = .unlinked then none else some t.list
  | none => none

theorem owner_eq_some {x : Nat} {l : TimerList} :
    w.owner x = some l ↔ l ≠ .unlinked ∧ ∃ t, w.pool.slots x = some t ∧ t.list = l := by
  unfold owner
  cases h : w.pool.slots x with
  | none => simp
  | some t =>
    by_cases hl : t.list = .unlinked
    · simp only [hl, if_true]
      constructor
      · nofun
      · rintro ⟨hne, t', ht', hl'⟩
        rw [← Option.some.inj ht', hl] at hl'
        exact absurd hl'.symm hne
    · simp only [hl, if_false, Option.some.injEq]
      constructor
      · rintro rfl
        exact ⟨hl, t, rfl, rfl⟩
      · rintro ⟨-, t', rfl, hl'⟩
        exact hl'

theorem listFor_ne_unlinked (e : Timestamp) : w.listFor e ≠ .unlinked := by
  unfold listFor
  dsimp only
  split
  · simp
  · simp

/-- `head` of a wheel whose head was written. -/
theorem head_setHead {l : TimerList} (hl : l ≠ .unlinked) (x : Option Nat) :
    (w.setHead l x).head = update w.head l x := by
  funext m
  cases l with
  | unlinked => exact absurd rfl hl
  | overflow =>
    cases m with
    | overflow => simp [setHead, head]
    | slot s => rfl
    | unlinked => rfl
  | slot s =>
    cases m with
    | overflow => rfl
    | unlinked => rfl
    | slot s' =>
      by_cases hs : s' = s
      · subst hs
        simp [setHead, head]
      · simp [setHead, head, hs]

/-- What writing a head leaves as it is. -/
theorem setHead_frame (l : TimerList) (x : Option Nat) :
    (w.setHead l x).pool = w.pool ∧ (w.setHead l x).links = w.links ∧
      (w.setHead l x).gen = w.gen ∧ (w.setHead l x).released = w.released ∧
      (w.setHead l x).curMs = w.curMs ∧ (w.setHead l x).firing = w.firing ∧
      (w.setHead l x).next = w.next ∧ (w.setHead l x).nextStale = w.nextStale ∧
      (w.setHead l x).walkNext = w.walkNext ∧
      (w.setHead l x).overflowMinMs = w.overflowMinMs := by
  cases l <;> exact ⟨rfl, rfl, rfl, rfl, rfl, rfl, rfl, rfl, rfl, rfl⟩

/-- What `link` and `unlink` leave as it is. -/
structure SameClock (w w' : TimerWheel kMaxTimers) : Prop where
  gen : w'.gen = w.gen
  released : w'.released = w.released
  curMs : w'.curMs = w.curMs
  firing : w'.firing = w.firing
  next : w'.next = w.next
  nextStale : w'.nextStale = w.nextStale

/-- `link`, field by field. -/
theorem link_spec (w : TimerWheel kMaxTimers) (idx : Nat) (t : Timer) :
    SameClock w (w.link idx t) ∧ (w.link idx t).walkNext = w.walkNext ∧
      (w.link idx t).pool = w.pool.set idx { t with list := w.listFor t.expiry } ∧
      (w.link idx t).links = w.links.linkFront (w.head (w.listFor t.expiry)) idx ∧
      (w.link idx t).head = update w.head (w.listFor t.expiry) (some idx) ∧
      (w.link idx t).overflowMinMs =
        if w.listFor t.expiry = .overflow ∧ beforeSome (msOf t.expiry) w.overflowMinMs = true then
          some (msOf t.expiry)
        else w.overflowMinMs := by
  have hne := w.listFor_ne_unlinked t.expiry
  unfold link
  dsimp only
  split_ifs with hmin
  · rw [head_setHead hne]
    obtain ⟨h1, h2, h3, h4, h5, h6, h7, h8, h9, h10⟩ := setHead_frame (w := { w with
        overflowMinMs := some (msOf t.expiry)
        pool := w.pool.set idx { t with list := w.listFor t.expiry }
        links := w.links.linkFront (w.head (w.listFor t.expiry)) idx })
      (w.listFor t.expiry) (some idx)
    exact ⟨⟨h3, h4, h5, h6, h7, h8⟩, h9, h1, h2, rfl, h10⟩
  · rw [head_setHead hne]
    obtain ⟨h1, h2, h3, h4, h5, h6, h7, h8, h9, h10⟩ := setHead_frame (w := { w with
        pool := w.pool.set idx { t with list := w.listFor t.expiry }
        links := w.links.linkFront (w.head (w.listFor t.expiry)) idx })
      (w.listFor t.expiry) (some idx)
    exact ⟨⟨h3, h4, h5, h6, h7, h8⟩, h9, h1, h2, rfl, h10⟩

/-- `unlink` of a timer that is on a list, field by field. -/
theorem unlink_spec (w : TimerWheel kMaxTimers) (idx : Nat) {t : Timer} (ht : t.list ≠ .unlinked) :
    SameClock w (w.unlink idx t) ∧
      (w.unlink idx t).walkNext =
        (if w.walkNext = some idx then w.links.next idx else w.walkNext) ∧
      (w.unlink idx t).pool = w.pool.set idx { t with list := .unlinked } ∧
      (w.unlink idx t).links = w.links.unlink idx ∧
      (w.unlink idx t).head = Links.headAfter w.links w.head t.list idx ∧
      (w.unlink idx t).overflowMinMs = w.overflowMinMs := by
  have key : ∀ w₁ : TimerWheel kMaxTimers, SameClock w w₁ → w₁.pool = w.pool → w₁.links = w.links →
      w₁.head = w.head → w₁.overflowMinMs = w.overflowMinMs →
      let w₂ := if (w₁.links.prev idx).isSome then w₁ else w₁.setHead t.list (w₁.links.next idx)
      SameClock w w₂ ∧ w₂.walkNext = w₁.walkNext ∧ w₂.pool = w.pool ∧ w₂.links = w.links ∧
        w₂.head = Links.headAfter w.links w.head t.list idx ∧
        w₂.overflowMinMs = w.overflowMinMs := by
    intro w₁ hc hp hl hh hm
    dsimp only
    unfold Links.headAfter
    rw [hl]
    split_ifs with hprev
    · exact ⟨hc, rfl, hp, hl, hh, hm⟩
    rw [head_setHead ht, hh]
    obtain ⟨h1, h2, h3, h4, h5, h6, h7, h8, h9, h10⟩ := setHead_frame (w := w₁)
      t.list (w.links.next idx)
    exact ⟨⟨h3.trans hc.gen, h4.trans hc.released, h5.trans hc.curMs, h6.trans hc.firing,
      h7.trans hc.next, h8.trans hc.nextStale⟩, h9, h1.trans hp, h2.trans hl, rfl, h10.trans hm⟩
  unfold unlink
  rw [if_neg ht]
  dsimp only
  by_cases hwalk : w.walkNext = some idx
  · rw [if_pos hwalk, if_pos hwalk]
    obtain ⟨hc, hn, hp, hl, hh, hm⟩ := key { w with walkNext := w.links.next idx }
      ⟨rfl, rfl, rfl, rfl, rfl, rfl⟩ rfl rfl rfl rfl
    refine ⟨⟨hc.gen, hc.released, hc.curMs, hc.firing, hc.next, hc.nextStale⟩, hn, ?_, ?_, hh, hm⟩
    · rw [hp]
    · rw [hl]
  · rw [if_neg hwalk, if_neg hwalk]
    obtain ⟨hc, hn, hp, hl, hh, hm⟩ := key w ⟨rfl, rfl, rfl, rfl, rfl, rfl⟩ rfl rfl rfl rfl
    refine ⟨⟨hc.gen, hc.released, hc.curMs, hc.firing, hc.next, hc.nextStale⟩, hn, ?_, ?_, hh, hm⟩
    · rw [hp]
    · rw [hl]

section Lists

variable {c : TimerList → List Nat} {idx : Nat} {t t₀ : Timer}

/-- The owners after a timer is written. -/
theorem owner_of_set {w' : TimerWheel kMaxTimers} {l : TimerList}
    (hs : w.pool.slots idx = some t₀) (hp : w'.pool = w.pool.set idx { t with list := l }) :
    w'.owner = update w.owner idx (if l = .unlinked then none else some l) := by
  funext x
  unfold owner
  rw [hp, slots_set hs]
  by_cases hx : x = idx
  · subst hx
    rw [if_pos rfl, update_self]
  · rw [if_neg hx, update_of_ne hx]

theorem link_lists (h : Links.Lists w.links w.head w.owner c) (hs : w.pool.slots idx = some t₀)
    (ho : w.owner idx = none) :
    Links.Lists (w.link idx t).links (w.link idx t).head (w.link idx t).owner
      (update c (w.listFor t.expiry) (idx :: c (w.listFor t.expiry))) := by
  obtain ⟨-, -, hp, hl, hh, -⟩ := w.link_spec idx t
  have hown := owner_of_set hs hp
  rw [if_neg (w.listFor_ne_unlinked t.expiry)] at hown
  rw [hl, hh, hown]
  exact h.linkFront ho (w.listFor t.expiry)

theorem unlink_lists (h : Links.Lists w.links w.head w.owner c) (hs : w.pool.slots idx = some t)
    (ht : t.list ≠ .unlinked) {a b : List Nat} (hc : c t.list = a ++ idx :: b) :
    Links.Lists (w.unlink idx t).links (w.unlink idx t).head (w.unlink idx t).owner
      (update c t.list (a ++ b)) := by
  obtain ⟨-, -, hp, hl, hh, -⟩ := w.unlink_spec idx ht
  have hown := owner_of_set hs hp
  rw [if_pos rfl] at hown
  rw [hl, hh, hown]
  exact h.unlink hc

end Lists

/-! ## The invariant -/

/-- Where a walk is: the millisecond it goes up to, the slot it is in, the timers of
that slot still to be met and the slots behind. -/
structure WalkPos where
  base : Int
  slot : Nat
  rest : List Nat
  ahead : Nat → Prop

/-- No walk: all is done up to `base`. -/
def WalkPos.done (base : Int) : WalkPos := ⟨base, 0, [], fun _ => False⟩

/-- Where a timer may be: its own slot, within a turn of the wheel, when it is not
due; where the walk still comes by, when it is; and the overflow list only beyond. -/
structure Placed (v : WalkPos) (loose : Nat → Prop) (minMs : Option Int) (x : Nat) (t : Timer) :
    Prop where
  period_pos : t.repeats = true → 0 < t.period
  unlinked_iff : t.list = .unlinked ↔ loose x
  later : ∀ s, t.list = .slot s → v.base ≤ msOf t.expiry →
    s = slotOf (msOf t.expiry) ∧ msOf t.expiry < v.base + kSlots
  due : ∀ s, t.list = .slot s → msOf t.expiry < v.base → x ∈ v.rest ∨ v.ahead s
  overflow : t.list = .overflow →
    v.base ≤ msOf t.expiry ∧ ∃ m, minMs = some m ∧ m ≤ msOf t.expiry

/-- The wheel's wiring: every live timer is on the list `c` has it on and where it may
be, except the `loose` ones, which are on none. -/
structure Wired (v : WalkPos) (loose : Nat → Prop) (w : TimerWheel kMaxTimers)
    (c : TimerList → List Nat) : Prop where
  lists : Links.Lists w.links w.head w.owner c
  split : ∃ P, c (.slot v.slot) = P ++ v.rest
  curMs_le : w.curMs ≤ v.base
  placed : ∀ x t, w.pool.slots x = some t → Placed v loose w.overflowMinMs x t
  gen : ∀ x, w.gen x = w.released x % kGenerations kMaxTimers

variable {v : WalkPos} {loose : Nat → Prop} {c : TimerList → List Nat} {idx : Nat} {t t₀ : Timer}

section

variable (h : Wired v loose w c)
include h

theorem Wired.owner_eq_none (hl : loose idx) : w.owner idx = none := by
  unfold owner
  cases hs : w.pool.slots idx with
  | none => rfl
  | some t =>
    have hun := (h.placed idx t hs).unlinked_iff.mpr hl
    simp [hun]

/-- The wiring does not look at the rest of the state. -/
theorem Wired.congr {w' : TimerWheel kMaxTimers} (hp : w'.pool = w.pool)
    (hl : w'.links = w.links) (hh : w'.head = w.head) (hc : w'.curMs = w.curMs)
    (hm : w'.overflowMinMs = w.overflowMinMs) (hg : w'.gen = w.gen)
    (hr : w'.released = w.released) : Wired v loose w' c := by
  have hown : w'.owner = w.owner := by
    funext x
    unfold owner
    rw [hp]
  constructor
  · rw [hl, hh, hown]
    exact h.lists
  · exact h.split
  · rw [hc]
    exact h.curMs_le
  · rw [hp, hm]
    exact h.placed
  · rw [hg, hr]
    exact h.gen

/-- Writing a timer without moving it. -/
theorem Wired.set (hs : w.pool.slots idx = some t₀)
    (hlist : t.list = t₀.list) (hexp : t₀.list ≠ .unlinked → t.expiry = t₀.expiry)
    (hper : t.repeats = true → 0 < t.period) :
    Wired v loose { w with pool := w.pool.set idx t } c := by
  constructor
  · have hown : TimerWheel.owner { w with pool := w.pool.set idx t } =
        update w.owner idx (if t.list = .unlinked then none else some t.list) :=
      owner_of_set (t := t) hs rfl
    refine h.lists.of_owner fun y => ?_
    rw [hown]
    by_cases hy : y = idx
    · subst hy
      rw [update_self, hlist]
      simp [owner, hs]
    · rw [update_of_ne hy]
  · exact h.split
  · exact h.curMs_le
  · intro x u hu
    rw [slots_set hs] at hu
    by_cases hx : x = idx
    · subst hx
      rw [if_pos rfl, Option.some.injEq] at hu
      subst hu
      have hp := h.placed x t₀ hs
      refine ⟨hper, ?_, ?_, ?_, ?_⟩
      · rw [hlist]
        exact hp.unlinked_iff
      · intro s hl
        rw [hlist] at hl
        rw [hexp (by simp [hl])]
        exact hp.later s hl
      · intro s hl
        rw [hlist] at hl
        rw [hexp (by simp [hl])]
        exact hp.due s hl
      · intro hl
        rw [hlist] at hl
        rw [hexp (by simp [hl])]
        exact hp.overflow hl
    · rw [if_neg hx] at hu
      exact h.placed x u hu
  · exact h.gen

/-- Where `link` puts an expiry that is not before the base. -/
theorem Wired.listFor_slot {e : Timestamp} (hms : v.base ≤ msOf e) {s : Nat}
    (hl : w.listFor e = .slot s) : s = slotOf (msOf e) ∧ msOf e < v.base + kSlots := by
  have hcur := h.curMs_le
  unfold listFor at hl
  dsimp only at hl
  by_cases hfar : (kSlots : Int) ≤ msOf e - w.curMs
  · simp [if_pos hfar] at hl
  · rw [if_neg hfar, if_neg (by omega)] at hl
    exact ⟨(TimerList.slot.inj hl).symm, by omega⟩

/-- `link` of a loose timer whose expiry is not before the base. -/
theorem Wired.link (hs : w.pool.slots idx = some t₀) (hl : loose idx)
    (hper : t.repeats = true → 0 < t.period) (hms : v.base ≤ msOf t.expiry) :
    Wired v (fun x => loose x ∧ x ≠ idx) (w.link idx t)
      (update c (w.listFor t.expiry) (idx :: c (w.listFor t.expiry))) := by
  obtain ⟨hclock, -, hp, -, -, hm⟩ := w.link_spec idx t
  constructor
  · exact link_lists h.lists hs (h.owner_eq_none hl)
  · obtain ⟨P, hP⟩ := h.split
    by_cases hslot : w.listFor t.expiry = .slot v.slot
    · refine ⟨idx :: P, ?_⟩
      rw [hslot, update_self, hP, cons_append]
    · refine ⟨P, ?_⟩
      rw [update_of_ne (Ne.symm hslot), hP]
  · rw [hclock.curMs]
    exact h.curMs_le
  · intro x u hu
    rw [hp, slots_set hs] at hu
    by_cases hx : x = idx
    · subst hx
      rw [if_pos rfl, Option.some.injEq] at hu
      subst hu
      refine ⟨hper, ?_, ?_, ?_, ?_⟩
      · exact ⟨fun he => absurd he (w.listFor_ne_unlinked t.expiry), fun he => absurd rfl he.2⟩
      · exact fun s hls _ => h.listFor_slot hms hls
      · exact fun s _ hlt => absurd hms (not_le.mpr hlt)
      intro hov
      refine ⟨hms, ?_⟩
      rw [hm]
      by_cases hlow : beforeSome (msOf t.expiry) w.overflowMinMs = true
      · rw [if_pos ⟨hov, hlow⟩]
        exact ⟨_, rfl, le_refl _⟩
      rw [if_neg (fun hh => hlow hh.2)]
      cases hmin : w.overflowMinMs with
      | none => exact absurd (by rw [hmin]; rfl) hlow
      | some m =>
        refine ⟨m, rfl, ?_⟩
        rw [hmin] at hlow
        simpa [beforeSome] using hlow
    · rw [if_neg hx] at hu
      have hpx := h.placed x u hu
      refine ⟨hpx.period_pos, ?_, hpx.later, hpx.due, ?_⟩
      · rw [hpx.unlinked_iff]
        exact ⟨fun hlo => ⟨hlo, hx⟩, fun hlo => hlo.1⟩
      intro hov
      obtain ⟨hge, m, hmin, hle⟩ := hpx.overflow hov
      refine ⟨hge, ?_⟩
      rw [hm]
      split_ifs with hlow
      · have hlt := beforeSome_iff.mp hlow.2 m hmin
        exact ⟨_, rfl, by omega⟩
      · exact ⟨m, hmin, hle⟩
  · rw [hclock.gen, hclock.released]
    exact h.gen

/-- `unlink` of a timer that is on a list: the walk does not meet it any more. -/
theorem Wired.unlink (hs : w.pool.slots idx = some t) (hl : ¬ loose idx)
    (hper : t.repeats = true → 0 < t.period) :
    ∃ c', Wired { v with rest := v.rest.erase idx } (fun x => loose x ∨ x = idx)
      (w.unlink idx t) c' := by
  have hlist : t.list ≠ .unlinked := fun he => hl ((h.placed idx t hs).unlinked_iff.mp he)
  obtain ⟨hclock, -, hp, -, -, hm⟩ := w.unlink_spec idx hlist
  have howner : w.owner idx = some t.list := owner_eq_some.mpr ⟨hlist, t, hs, rfl⟩
  obtain ⟨a, b, hab⟩ := h.lists.split howner
  obtain ⟨P, hP⟩ := h.split
  refine ⟨update c t.list (a ++ b), ?_⟩
  constructor
  · exact unlink_lists h.lists hs hlist hab
  · -- Where the timer stands decides what the walk has left.
    have hnodup := h.lists.nodup (.slot v.slot)
    rw [hP] at hnodup
    by_cases hslot : t.list = .slot v.slot
    · rw [hslot, update_self]
      rw [hslot, hP] at hab
      rcases Links.append_split hab with ⟨d, hPd, hbd⟩ | ⟨d, had, hrd⟩
      · have hidx : idx ∈ P := by rw [hPd]; simp
        have hnot : idx ∉ v.rest := fun hr => (nodup_append.mp hnodup).2.2 idx hidx idx hr rfl
        refine ⟨a ++ d, ?_⟩
        rw [erase_of_not_mem hnot, hbd, append_assoc]
      · have hnd : idx ∉ d := by
          have hrest := (nodup_append.mp hnodup).2.1
          rw [hrd] at hrest
          exact fun hd => (nodup_append.mp hrest).2.2 idx hd idx mem_cons_self rfl
        refine ⟨P, ?_⟩
        rw [hrd, erase_append_right _ hnd, erase_cons_head, had, append_assoc]
    · have hnot : idx ∉ v.rest := by
        intro hr
        have hmem : idx ∈ c (.slot v.slot) := by rw [hP]; exact mem_append_right P hr
        rw [h.lists.mem, howner, Option.some.injEq] at hmem
        exact hslot hmem
      refine ⟨P, ?_⟩
      rw [update_of_ne (Ne.symm hslot), hP, erase_of_not_mem hnot]
  · rw [hclock.curMs]
    exact h.curMs_le
  · intro x u hu
    rw [hp, slots_set hs] at hu
    by_cases hx : x = idx
    · subst hx
      rw [if_pos rfl, Option.some.injEq] at hu
      subst hu
      refine ⟨hper, ?_, ?_, ?_, ?_⟩
      · exact ⟨fun _ => .inr rfl, fun _ => rfl⟩
      · exact fun s he => nomatch he
      · exact fun s he => nomatch he
      · nofun
    · rw [if_neg hx] at hu
      have hpx := h.placed x u hu
      refine ⟨hpx.period_pos, ?_, hpx.later, ?_, ?_⟩
      · rw [hpx.unlinked_iff]
        exact ⟨.inl, fun ho => ho.resolve_right hx⟩
      · intro s hls hlt
        exact (hpx.due s hls hlt).imp_left (mem_erase_of_ne hx).mpr
      · rw [hm]
        exact hpx.overflow
  · rw [hclock.gen, hclock.released]
    exact h.gen

end

/-- The generation counter is the count of releases, wrapped. -/
theorem next_gen (r G : Nat) : (if r % G + 1 = G then 0 else r % G + 1) = (r + 1) % G := by
  rw [← Nat.mod_add_mod]
  split_ifs with hG
  · rw [hG, Nat.mod_self]
  rcases Nat.eq_zero_or_pos G with rfl | hpos
  · rw [Nat.mod_zero, Nat.mod_zero]
  · have hlt := Nat.mod_lt r hpos
    exact (Nat.mod_eq_of_lt (by omega)).symm

/-- `release` of a loose timer. -/
theorem Wired.release (h : Wired v loose w c) (hs : w.pool.slots idx = some t) (hl : loose idx) :
    Wired v (fun x => loose x ∧ x ≠ idx) (w.release idx) c := by
  constructor
  · refine h.lists.of_owner fun y => ?_
    by_cases hy : y = idx
    · subst hy
      rw [h.owner_eq_none hl]
      simp [owner, release, slots_free hs]
    · simp [owner, TimerWheel.release, Pool.slots_free hs, hy]
  · exact h.split
  · exact h.curMs_le
  · intro x u hu
    simp only [TimerWheel.release, Pool.slots_free hs] at hu
    by_cases hx : x = idx
    · simp [if_pos hx] at hu
    rw [if_neg hx] at hu
    have hpx := h.placed x u hu
    refine ⟨hpx.period_pos, ?_, hpx.later, hpx.due, hpx.overflow⟩
    rw [hpx.unlinked_iff]
    exact ⟨fun hlo => ⟨hlo, hx⟩, fun hlo => hlo.1⟩
  · intro x
    simp only [TimerWheel.release]
    by_cases hx : x = idx
    · subst hx
      rw [update_self, update_self, h.gen x]
      exact next_gen _ _
    · rw [update_of_ne hx, update_of_ne hx]
      exact h.gen x

/-- The walk's next timer after `unlink`. -/
theorem Wired.walkNext_unlink (h : Wired v loose w c) (hsync : w.walkNext = v.rest.head?)
    (ht : t.list ≠ .unlinked) : (w.unlink idx t).walkNext = (v.rest.erase idx).head? := by
  obtain ⟨-, hwalk, -⟩ := w.unlink_spec idx ht
  obtain ⟨P, hP⟩ := h.split
  rw [hwalk, hsync]
  cases hrest : v.rest with
  | nil => simp
  | cons y rest =>
    by_cases hy : y = idx
    · subst hy
      have hchain := h.lists.chain (.slot v.slot)
      rw [hP, hrest] at hchain
      simp [hchain.next_eq]
    · simp [hy, erase_cons_tail]

/-! ## Between the steps of a poll -/

/-- What holds whenever a call is made: between polls, and inside a callback, where
only the firing timer is on no list. -/
structure Sound (v : WalkPos) (w : TimerWheel kMaxTimers) : Prop where
  wired : ∃ c, Wired v (fun x => w.firing = some x) w c
  walkNext : w.walkNext = v.rest.head?
  firing_live : ∀ x, w.firing = some x → ∃ t, w.pool.slots x = some t
  active : ∀ x t, w.pool.slots x = some t → w.firing ≠ some x → t.active = true
  next : w.nextStale = false → ∀ x t, w.pool.slots x = some t → t.active = true →
    ∃ n, w.next = some n ∧ n ≤ t.expiry

/-- A timer on the walk's list is on no other, and not loose. -/
theorem Wired.not_mem_rest (h : Wired v loose w c) (hl : loose idx) : idx ∉ v.rest := by
  intro hr
  obtain ⟨P, hP⟩ := h.split
  have hmem : idx ∈ c (.slot v.slot) := by rw [hP]; exact mem_append_right P hr
  simp [h.lists.mem, h.owner_eq_none hl] at hmem

/-! ### Adding -/

/-- The timer `add` makes. -/
def newTimer (now : Timestamp) (period : Int) (repeats : Bool) (userData : Nat) : Timer :=
  { expiry := now + period
    period := if period < kSlotNs ∧ repeats = true then kSlotNs else period
    userData := userData
    repeats := repeats
    active := true
    list := .unlinked }

theorem newTimer_period_pos {now : Timestamp} {period : Int} {repeats : Bool} {userData : Nat} :
    (newTimer now period repeats userData).repeats = true →
      0 < (newTimer now period repeats userData).period := by
  intro hr
  have hr' : repeats = true := hr
  simp only [newTimer, kSlotNs, hr', and_true]
  split
  · decide
  · omega

/-- The cached earliest expiry, with one more. -/
def noteNext (w : TimerWheel kMaxTimers) (e : Timestamp) : TimerWheel kMaxTimers :=
  if beforeSome e w.next then { w with next := some e } else w

theorem noteNext_next (w : TimerWheel kMaxTimers) (e : Timestamp) :
    ∃ n, (w.noteNext e).next = some n ∧ n ≤ e ∧ ∀ m, w.next = some m → n ≤ m := by
  unfold noteNext
  split_ifs with hb
  · exact ⟨e, rfl, le_refl e, fun m hm => (beforeSome_iff.mp hb m hm).le⟩
  cases hn : w.next with
  | none => exact absurd (by rw [hn]; rfl) hb
  | some n =>
    rw [hn] at hb
    refine ⟨n, rfl, ?_, ?_⟩
    · simpa [beforeSome] using hb
    · intro m hm
      exact (Option.some.inj hm).le

/-- What noting an expiry leaves as it is. -/
theorem noteNext_frame (w : TimerWheel kMaxTimers) (e : Timestamp) :
    (w.noteNext e).pool = w.pool ∧ (w.noteNext e).links = w.links ∧
      (w.noteNext e).head = w.head ∧ (w.noteNext e).curMs = w.curMs ∧
      (w.noteNext e).overflowMinMs = w.overflowMinMs ∧ (w.noteNext e).gen = w.gen ∧
      (w.noteNext e).released = w.released ∧ (w.noteNext e).firing = w.firing ∧
      (w.noteNext e).walkNext = w.walkNext ∧ (w.noteNext e).nextStale = w.nextStale := by
  unfold noteNext
  split <;> exact ⟨rfl, rfl, rfl, rfl, rfl, rfl, rfl, rfl, rfl, rfl⟩

/-- `add`: nothing when the pool is full, else a new timer, put on a list. -/
theorem add_eq (w : TimerWheel kMaxTimers) (now : Timestamp) (period : Int) (repeats : Bool)
    (userData : Nat) :
    (w.add now period repeats userData).1 = w ∨
      ∃ idx pool, w.pool.allocate = some (idx, pool) ∧
        (w.add now period repeats userData).1 =
          ({ w with pool := pool.set idx (newTimer now period repeats userData) }.link idx
            (newTimer now period repeats userData)).noteNext (now + period) := by
  unfold add
  cases ha : w.pool.allocate with
  | none => exact .inl rfl
  | some r => exact .inr ⟨r.1, r.2, rfl, rfl⟩

/-- What a new timer leaves as it is. -/
structure Added (w w' : TimerWheel kMaxTimers) (idx : Nat) (t : Timer) : Prop where
  fresh : w.pool.slots idx = none
  slots : ∀ k, w'.pool.slots k = if k = idx then some t else w.pool.slots k
  released : w'.released = w.released
  firing : w'.firing = w.firing
  walkNext : w'.walkNext = w.walkNext
  nextStale : w'.nextStale = w.nextStale
  curMs : w'.curMs = w.curMs
  next_le : ∃ n, w'.next = some n ∧ n ≤ t.expiry ∧ ∀ m, w.next = some m → n ≤ m

section Add

variable {now : Timestamp} {period : Int} {repeats : Bool} {userData : Nat}

/-- A new timer in the pool, not on a list yet. -/
theorem slots_allocated {p p' : Pool Timer kMaxTimers}
    (ha : p.allocate = some (idx, p')) (k : Nat) :
    (p'.set idx t).slots k = if k = idx then some t else p.slots k := by
  obtain ⟨-, -, hslots⟩ := allocate_spec ha
  have hdef : p'.slots idx = some default := by rw [hslots, if_pos rfl]
  rw [slots_set hdef, hslots]
  split_ifs with hk
  · rfl
  · rfl

theorem add_cases (w : TimerWheel kMaxTimers) (now : Timestamp) (period : Int) (repeats : Bool)
    (userData : Nat) :
    (w.add now period repeats userData).1 = w ∨
      ∃ idx, Added w (w.add now period repeats userData).1 idx
        { newTimer now period repeats userData with list := w.listFor (now + period) } := by
  rcases w.add_eq now period repeats userData with hsame | ⟨idx, pool, ha, heq⟩
  · exact .inl hsame
  right
  refine ⟨idx, ?_⟩
  have hslots := slots_allocated (t := newTimer now period repeats userData) ha
  have hidx := hslots idx
  rw [if_pos rfl] at hidx
  rw [heq]
  generalize hw₀ : ({ w with pool := pool.set idx (newTimer now period repeats userData) } :
    TimerWheel kMaxTimers) = w₀
  have hpool : w₀.pool = pool.set idx (newTimer now period repeats userData) := by rw [← hw₀]
  rw [← hpool] at hslots hidx
  obtain ⟨hclock, hwalk, hp, -, -, -⟩ := w₀.link_spec idx (newTimer now period repeats userData)
  obtain ⟨f1, -, -, f4, -, -, f7, f8, f9, f10⟩ :=
    (w₀.link idx (newTimer now period repeats userData)).noteNext_frame (now + period)
  obtain ⟨n, hn, hle, hmin⟩ :=
    (w₀.link idx (newTimer now period repeats userData)).noteNext_next (now + period)
  constructor
  · exact (allocate_spec ha).1
  · intro k
    rw [f1, hp, slots_set hidx, hslots]
    split_ifs with hk
    · rw [← hw₀]
      rfl
    · rfl
  · rw [f7, hclock.released, ← hw₀]
  · rw [f8, hclock.firing, ← hw₀]
  · rw [f9, hwalk, ← hw₀]
  · rw [f10, hclock.nextStale, ← hw₀]
  · rw [f4, hclock.curMs, ← hw₀]
  · refine ⟨n, hn, hle, ?_⟩
    rw [hclock.next, ← hw₀] at hmin
    exact hmin

/-- A new timer's pool slot is wired as a loose one. -/
theorem Wired.allocate (h : Wired v loose w c) {pool : Pool Timer kMaxTimers}
    (ha : w.pool.allocate = some (idx, pool)) (hper : t.repeats = true → 0 < t.period)
    (hlist : t.list = .unlinked) :
    Wired v (fun x => loose x ∨ x = idx) { w with pool := pool.set idx t } c := by
  have hslots := slots_allocated (t := t) ha
  have hfresh := (allocate_spec ha).1
  constructor
  · refine h.lists.of_owner fun y => ?_
    unfold owner
    rw [hslots]
    by_cases hy : y = idx
    · subst hy
      simp [hlist, hfresh]
    · rw [if_neg hy]
  · exact h.split
  · exact h.curMs_le
  · intro x u hu
    dsimp only at hu
    rw [hslots] at hu
    split_ifs at hu with hx
    · rw [Option.some.injEq] at hu
      subst hu
      refine ⟨hper, ?_, ?_, ?_, ?_⟩
      · exact ⟨fun _ => .inr hx, fun _ => hlist⟩
      · exact fun s he => absurd he (by simp [hlist])
      · exact fun s he => absurd he (by simp [hlist])
      · exact fun he => absurd he (by simp [hlist])
    · have hpx := h.placed x u hu
      refine ⟨hpx.period_pos, ?_, hpx.later, hpx.due, hpx.overflow⟩
      rw [hpx.unlinked_iff]
      exact ⟨.inl, fun ho => ho.resolve_right hx⟩
  · exact h.gen

theorem Wired.add (h : Wired v loose w c) (hloose : ∀ x, loose x → ∃ t, w.pool.slots x = some t)
    (hms : v.base ≤ msOf (now + period)) (repeats : Bool) (userData : Nat) :
    ∃ c', Wired v loose (w.add now period repeats userData).1 c' := by
  rcases w.add_eq now period repeats userData with hsame | ⟨idx, pool, ha, heq⟩
  · rw [hsame]
    exact ⟨c, h⟩
  have hnot : ¬ loose idx := by
    intro hlo
    obtain ⟨t, ht⟩ := hloose idx hlo
    simp [(allocate_spec ha).1] at ht
  have hslots := slots_allocated (t := newTimer now period repeats userData) ha idx
  rw [if_pos rfl] at hslots
  have h₁ := (h.allocate ha newTimer_period_pos rfl).link
    (t := newTimer now period repeats userData) hslots (.inr rfl) newTimer_period_pos hms
  have hback : (fun x => (loose x ∨ x = idx) ∧ x ≠ idx) = loose := by
    funext x
    refine propext ⟨fun hx => hx.1.resolve_right hx.2, fun hx => ⟨.inl hx, ?_⟩⟩
    rintro rfl
    exact hnot hx
  rw [hback] at h₁
  rw [heq]
  obtain ⟨f1, f2, f3, f4, f5, f6, f7, -, -, -⟩ := noteNext_frame _ (now + period)
  exact ⟨_, h₁.congr f1 f2 f3 f4 f5 f6 f7⟩

/-- `add` at a time not before the base. -/
theorem Sound.add (h : Sound v w) (hnow : v.base ≤ msOf now) (hper : 0 ≤ period) :
    Sound v (w.add now period repeats userData).1 := by
  obtain ⟨c, hc⟩ := h.wired
  have hms : v.base ≤ msOf (now + period) := le_trans hnow (msOf_mono (le_add_of_nonneg_right hper))
  obtain ⟨c', hc'⟩ := hc.add h.firing_live hms repeats userData
  rcases w.add_cases now period repeats userData with hsame | ⟨idx, had⟩
  · rw [hsame]
    exact h
  constructor
  · rw [had.firing]
    exact ⟨c', hc'⟩
  · rw [had.walkNext]
    exact h.walkNext
  · intro x hx
    rw [had.firing] at hx
    obtain ⟨t, ht⟩ := h.firing_live x hx
    rw [had.slots]
    split_ifs with hk
    · exact ⟨_, rfl⟩
    · exact ⟨t, ht⟩
  · intro x t ht hx
    rw [had.firing] at hx
    rw [had.slots] at ht
    split_ifs at ht with hk
    · rw [Option.some.injEq] at ht
      rw [← ht]
      rfl
    · exact h.active x t ht hx
  · intro hstale x t ht ha
    rw [had.nextStale] at hstale
    obtain ⟨n, hn, hle, hmin⟩ := had.next_le
    rw [had.slots] at ht
    split_ifs at ht with hk
    · rw [Option.some.injEq] at ht
      subst ht
      exact ⟨n, hn, hle⟩
    · obtain ⟨m, hm, hme⟩ := h.next hstale x t ht ha
      exact ⟨n, hn, le_trans (hmin m hm) hme⟩

end Add

/-! ### Cancelling -/

/-- What `cancel` does to a live and active timer. -/
def cancelled (w : TimerWheel kMaxTimers) (idx : Nat) (t : Timer) : TimerWheel kMaxTimers :=
  let t' := { t with active := false }
  let w := { w with pool := w.pool.set idx t' }
  let w := if beforeSome t.expiry w.next = true ∨ w.next = some t.expiry then
      { w with nextStale := true }
    else w
  let w := w.unlink idx t'
  if w.firing = some idx then w else w.release idx

theorem cancel_cases (w : TimerWheel kMaxTimers) (id : Nat) :
    w.cancel id = (w, false) ∨ ∃ t, w.live id = true ∧
      w.pool.slots (indexOf kMaxTimers id) = some t ∧ t.active = true ∧
      w.cancel id = (w.cancelled (indexOf kMaxTimers id) t, true) := by
  unfold cancel
  split_ifs with hlive
  · dsimp only
    cases hs : w.pool.slots (indexOf kMaxTimers id) with
    | none => exact .inl rfl
    | some t =>
      dsimp only
      by_cases ha : t.active = true
      · rw [if_pos ha]
        exact .inr ⟨t, hlive, rfl, ha, rfl⟩
      · rw [if_neg ha]
        exact .inl rfl
  · exact .inl rfl

/-- What a cancelled timer leaves as it is: the firing one stays in its pool slot. -/
structure Cancelled (w w' : TimerWheel kMaxTimers) (idx : Nat) (t : Timer) : Prop where
  slots : ∀ k, k ≠ idx → w'.pool.slots k = w.pool.slots k
  slot : w'.pool.slots idx = if w.firing = some idx then some { t with active := false } else none
  released : w'.released =
    if w.firing = some idx then w.released
    else update w.released idx (w.released idx + 1)
  firing : w'.firing = w.firing
  curMs : w'.curMs = w.curMs
  next : w'.next = w.next
  nextStale : w'.nextStale = false → w.nextStale = false

/-- The wheel when `cancel` has marked the timer. -/
def marked (w : TimerWheel kMaxTimers) (idx : Nat) (t : Timer) : TimerWheel kMaxTimers :=
  if beforeSome t.expiry w.next = true ∨ w.next = some t.expiry then
    { w with pool := w.pool.set idx { t with active := false }, nextStale := true }
  else { w with pool := w.pool.set idx { t with active := false } }

theorem cancelled_eq (w : TimerWheel kMaxTimers) (idx : Nat) (t : Timer) : w.cancelled idx t =
      if ((w.marked idx t).unlink idx { t with active := false }).firing = some idx then
        (w.marked idx t).unlink idx { t with active := false }
      else ((w.marked idx t).unlink idx { t with active := false }).release idx := rfl

theorem marked_frame (w : TimerWheel kMaxTimers) (idx : Nat) (t : Timer) :
    (w.marked idx t).pool = w.pool.set idx { t with active := false } ∧
      (w.marked idx t).links = w.links ∧ (w.marked idx t).head = w.head ∧
      (w.marked idx t).curMs = w.curMs ∧ (w.marked idx t).overflowMinMs = w.overflowMinMs ∧
      (w.marked idx t).gen = w.gen ∧ (w.marked idx t).released = w.released ∧
      (w.marked idx t).firing = w.firing ∧ (w.marked idx t).walkNext = w.walkNext ∧
      (w.marked idx t).next = w.next ∧
      ((w.marked idx t).nextStale = false → w.nextStale = false) := by
  unfold marked
  split
  · exact ⟨rfl, rfl, rfl, rfl, rfl, rfl, rfl, rfl, rfl, rfl, nofun⟩
  · exact ⟨rfl, rfl, rfl, rfl, rfl, rfl, rfl, rfl, rfl, rfl, id⟩

theorem Wired.marked (h : Wired v loose w c) (hs : w.pool.slots idx = some t) :
    Wired v loose (w.marked idx t) c := by
  have hset := h.set (t := { t with active := false }) hs rfl (fun _ => rfl)
    (h.placed idx t hs).period_pos
  obtain ⟨f1, f2, f3, f4, f5, f6, f7, -⟩ := w.marked_frame idx t
  exact hset.congr f1 f2 f3 f4 f5 f6 f7

/-- Cancelling the firing timer only marks it. -/
theorem cancelled_firing (hlist : t.list = .unlinked)
    (hf : w.firing = some idx) : w.cancelled idx t = w.marked idx t := by
  have hun : (w.marked idx t).unlink idx { t with active := false } = w.marked idx t := by
    unfold TimerWheel.unlink
    rw [if_pos hlist]
  obtain ⟨-, -, -, -, -, -, -, f8, -⟩ := w.marked_frame idx t
  rw [cancelled_eq, hun, f8, if_pos hf]

/-- Cancelling another timer takes it off its list and releases it. -/
theorem cancelled_other (hlist : t.list ≠ .unlinked) (hf : w.firing ≠ some idx) :
    w.cancelled idx t = ((w.marked idx t).unlink idx { t with active := false }).release idx := by
  obtain ⟨hclock, -⟩ := (w.marked idx t).unlink_spec idx (t := { t with active := false }) hlist
  obtain ⟨-, -, -, -, -, -, -, f8, -⟩ := w.marked_frame idx t
  rw [cancelled_eq, hclock.firing, f8, if_neg hf]

section Cancel

variable (h : Sound v w) (hs : w.pool.slots idx = some t)

include h hs

theorem Sound.list_eq_iff : t.list = .unlinked ↔ w.firing = some idx := by
  obtain ⟨c, hc⟩ := h.wired
  exact (hc.placed idx t hs).unlinked_iff

theorem Sound.cancelled_spec : Cancelled w (w.cancelled idx t) idx t := by
  obtain ⟨f1, -, -, f4, -, -, f7, f8, f9, f10, f11⟩ := w.marked_frame idx t
  by_cases hf : w.firing = some idx
  · rw [cancelled_firing ((h.list_eq_iff hs).mpr hf) hf]
    constructor
    · intro k hk
      rw [f1, slots_set hs, if_neg hk]
    · rw [f1, slots_set hs, if_pos rfl, if_pos hf]
    · rw [f7, if_pos hf]
    · exact f8
    · exact f4
    · exact f10
    · exact f11
  · have hlist : t.list ≠ .unlinked := fun he => hf ((h.list_eq_iff hs).mp he)
    rw [cancelled_other hlist hf]
    obtain ⟨hclock, -, hp, -, -, -⟩ :=
      (w.marked idx t).unlink_spec idx (t := { t with active := false }) hlist
    have hmark : (w.marked idx t).pool.slots idx = some { t with active := false } := by
      rw [f1, slots_set hs, if_pos rfl]
    have hslots : ∀ k, ((w.marked idx t).unlink idx { t with active := false }).pool.slots k =
        if k = idx then some { t with active := false, list := .unlinked }
        else w.pool.slots k := by
      intro k
      rw [hp, slots_set hmark]
      split_ifs with hk
      · rfl
      · rw [f1, slots_set hs, if_neg hk]
    have hidx := hslots idx
    rw [if_pos rfl] at hidx
    constructor
    · intro k hk
      simp only [release]
      rw [slots_free hidx, if_neg hk, hslots, if_neg hk]
    · simp only [release]
      rw [slots_free hidx, if_pos rfl, if_neg hf]
    · simp only [release]
      rw [hclock.released, f7, if_neg hf]
    · exact hclock.firing.trans f8
    · exact hclock.curMs.trans f4
    · exact hclock.next.trans f10
    · exact fun hst => f11 (hclock.nextStale ▸ hst)

/-- `cancel` of a timer: the walk does not meet it any more. -/
theorem Sound.cancelled_wired :
    (∃ c, Wired { v with rest := v.rest.erase idx } (fun x => w.firing = some x)
      (w.cancelled idx t) c) ∧
      (w.cancelled idx t).walkNext = (v.rest.erase idx).head? := by
  obtain ⟨c, hc⟩ := h.wired
  obtain ⟨f1, -, -, -, -, -, -, f8, f9, -⟩ := w.marked_frame idx t
  have hm := hc.marked hs
  by_cases hf : w.firing = some idx
  · rw [cancelled_firing ((h.list_eq_iff hs).mpr hf) hf, erase_of_not_mem (hc.not_mem_rest hf)]
    exact ⟨⟨c, hm⟩, f9.trans h.walkNext⟩
  have hlist : t.list ≠ .unlinked := fun he => hf ((h.list_eq_iff hs).mp he)
  rw [cancelled_other hlist hf]
  have hmark : (w.marked idx t).pool.slots idx = some { t with active := false } := by
    rw [f1, slots_set hs, if_pos rfl]
  have hper := (hc.placed idx t hs).period_pos
  obtain ⟨c', hc'⟩ := hm.unlink hmark hf hper
  obtain ⟨-, -, hp, -, -, -⟩ :=
    (w.marked idx t).unlink_spec idx (t := { t with active := false }) hlist
  have hidx : ((w.marked idx t).unlink idx { t with active := false }).pool.slots idx =
      some { t with active := false, list := .unlinked } := by
    rw [hp, slots_set hmark, if_pos rfl]
  have hback : (fun x => (w.firing = some x ∨ x = idx) ∧ x ≠ idx) = fun x => w.firing = some x := by
    funext x
    refine propext ⟨fun hx => hx.1.resolve_right hx.2, fun hx => ⟨.inl hx, ?_⟩⟩
    rintro rfl
    exact hf hx
  have hrel := hc'.release hidx (.inr rfl)
  rw [hback] at hrel
  exact ⟨⟨c', hrel⟩, hm.walkNext_unlink (t := { t with active := false })
    (f9.trans h.walkNext) hlist⟩

/-- `cancel` of a timer keeps the wheel sound. -/
theorem Sound.cancelled : Sound { v with rest := v.rest.erase idx } (w.cancelled idx t) := by
  have hsp := h.cancelled_spec hs
  obtain ⟨hwired, hwalk⟩ := h.cancelled_wired hs
  constructor
  · rw [hsp.firing]
    exact hwired
  · exact hwalk
  · intro x hx
    rw [hsp.firing] at hx
    by_cases hk : x = idx
    · subst hk
      rw [hsp.slot, if_pos hx]
      exact ⟨_, rfl⟩
    · rw [hsp.slots x hk]
      exact h.firing_live x hx
  · intro x u hu hx
    rw [hsp.firing] at hx
    by_cases hk : x = idx
    · subst hk
      simp [hsp.slot, if_neg hx] at hu
    · rw [hsp.slots x hk] at hu
      exact h.active x u hu hx
  · intro hstale x u hu ha
    rw [hsp.next]
    by_cases hk : x = idx
    · subst hk
      rw [hsp.slot] at hu
      by_cases hf : w.firing = some x
      · rw [if_pos hf, Option.some.injEq] at hu
        simp [← hu] at ha
      · simp [if_neg hf] at hu
    · rw [hsp.slots x hk] at hu
      exact h.next (hsp.nextStale hstale) x u hu ha

end Cancel

/-! ### The earliest expiry -/

/-- One timer of the scan of `next_expiry`. -/
def scanStep (w : TimerWheel kMaxTimers) (best : Option Timestamp) (idx : Nat) :
    Option Timestamp :=
  match w.pool.slots idx with
  | some t => if t.active = true ∧ beforeSome t.expiry best = true then some t.expiry else best
  | none => best

theorem nextExpiry_stale (hstale : w.nextStale = true) : w.nextExpiry.1 =
      { w with next := w.pool.liveHandles.foldl w.scanStep none, nextStale := false } := by
  unfold nextExpiry
  rw [if_pos hstale]
  rfl

/-- A step of the scan is not after what it had, nor after the timer it meets. -/
theorem scanStep_le (w : TimerWheel kMaxTimers) (best : Option Timestamp) (x : Nat) :
    (∀ b, best = some b → ∃ n, w.scanStep best x = some n ∧ n ≤ b) ∧
      ∀ t, w.pool.slots x = some t → t.active = true →
        ∃ n, w.scanStep best x = some n ∧ n ≤ t.expiry := by
  unfold scanStep
  cases hs : w.pool.slots x with
  | none => exact ⟨fun b hb => ⟨b, hb, le_refl b⟩, fun t ht => nomatch ht⟩
  | some u =>
    dsimp only
    split_ifs with hbest
    · refine ⟨fun b hb => ⟨u.expiry, rfl, (beforeSome_iff.mp hbest.2 b hb).le⟩, ?_⟩
      intro t ht _
      rw [← Option.some.inj ht]
      exact ⟨u.expiry, rfl, le_refl _⟩
    refine ⟨fun b hb => ⟨b, hb, le_refl b⟩, ?_⟩
    intro t ht ha
    rw [← Option.some.inj ht] at ha ⊢
    cases best with
    | none => exact absurd ⟨ha, rfl⟩ hbest
    | some b =>
      refine ⟨b, rfl, not_lt.mp fun hlt => hbest ⟨ha, ?_⟩⟩
      simpa [beforeSome] using hlt

theorem scan_le (w : TimerWheel kMaxTimers) (l : List Nat) (best : Option Timestamp) :
    (∀ b, best = some b → ∃ n, l.foldl w.scanStep best = some n ∧ n ≤ b) ∧
      ∀ x ∈ l, ∀ t, w.pool.slots x = some t → t.active = true →
        ∃ n, l.foldl w.scanStep best = some n ∧ n ≤ t.expiry := by
  induction l generalizing best with
  | nil => exact ⟨fun b hb => ⟨b, hb, le_refl b⟩, fun x hx => absurd hx not_mem_nil⟩
  | cons y l ih =>
    rw [foldl_cons]
    obtain ⟨hkeep, hmeet⟩ := w.scanStep_le best y
    obtain ⟨ihkeep, ihmeet⟩ := ih (w.scanStep best y)
    refine ⟨?_, ?_⟩
    · intro b hb
      obtain ⟨n, hn, hle⟩ := hkeep b hb
      obtain ⟨m, hm, hmn⟩ := ihkeep n hn
      exact ⟨m, hm, le_trans hmn hle⟩
    · intro x hx t ht ha
      rcases mem_cons.mp hx with rfl | hx
      · obtain ⟨n, hn, hle⟩ := hmeet t ht ha
        obtain ⟨m, hm, hmn⟩ := ihkeep n hn
        exact ⟨m, hm, le_trans hmn hle⟩
      · exact ihmeet x hx t ht ha

/-- What `next_expiry` leaves as it is: all but the cache. -/
theorem nextExpiry_frame (w : TimerWheel kMaxTimers) :
    w.nextExpiry.1.pool = w.pool ∧ w.nextExpiry.1.links = w.links ∧
      w.nextExpiry.1.head = w.head ∧ w.nextExpiry.1.curMs = w.curMs ∧
      w.nextExpiry.1.overflowMinMs = w.overflowMinMs ∧ w.nextExpiry.1.gen = w.gen ∧
      w.nextExpiry.1.released = w.released ∧ w.nextExpiry.1.firing = w.firing ∧
      w.nextExpiry.1.walkNext = w.walkNext := by
  unfold nextExpiry
  split <;> exact ⟨rfl, rfl, rfl, rfl, rfl, rfl, rfl, rfl, rfl⟩

theorem Sound.nextExpiry (h : Sound v w) : Sound v w.nextExpiry.1 := by
  obtain ⟨f1, f2, f3, f4, f5, f6, f7, f8, f9⟩ := w.nextExpiry_frame
  obtain ⟨c, hc⟩ := h.wired
  constructor
  · rw [f8]
    exact ⟨c, hc.congr f1 f2 f3 f4 f5 f6 f7⟩
  · exact f9.trans h.walkNext
  · rw [f8, f1]
    exact h.firing_live
  · rw [f8, f1]
    exact h.active
  intro hstale x t ht ha
  rw [f1] at ht
  by_cases hst : w.nextStale = true
  · rw [nextExpiry_stale hst]
    exact (w.scan_le w.pool.liveHandles none).2 x (mem_liveHandles.mpr ⟨t, ht⟩) t ht ha
  have hsame : w.nextExpiry.1 = w := by
    unfold TimerWheel.nextExpiry
    rw [if_neg hst]
  rw [hsame] at hstale ⊢
  exact h.next hstale x t ht ha

end TimerWheel

end FastMM
