/-
  Timers/Polling.lean --- what `poll` fires.

  Source: `include/fastmm/core/timer_wheel.hpp` (`poll`, `poll_due`, `fire`,
  `promote_overflow`).

  The walk is described by the wheel's invariant at a moving position.  For one timer
  that is due when `poll` is called, each point of the walk has it either untouched
  and still to be met, or settled, with one event of its own in the trace, and not to
  fire again.  Callbacks, `fire` and the two loops keep this.
-/
import Mathlib.Data.List.Perm.Subperm
import FastMM.Timers.WheelInvariant
set_option autoImplicit false

namespace FastMM

open Foundation Function List Option Pool TimerWheel

namespace TimerWheel

variable {kMaxTimers : Nat} {w : TimerWheel kMaxTimers}

/-! ## Promoting -/

theorem listFor_congr {w' : TimerWheel kMaxTimers} (hcur : w'.curMs = w.curMs) (e : Timestamp) :
    w'.listFor e = w.listFor e := by
  unfold listFor
  rw [hcur]

theorem listFor_eq_overflow {e : Timestamp} :
    w.listFor e = .overflow ↔ (kSlots : Int) ≤ msOf e - w.curMs := by
  unfold listFor
  dsimp only
  split
  · simp [*]
  · simp [*]

theorem slot_of_listFor {e : Timestamp} {s : Nat} (h : w.listFor e = .slot s) :
    msOf e < w.curMs + kSlots ∧ s = slotOf (max (msOf e) w.curMs) := by
  unfold listFor at h
  dsimp only at h
  by_cases hfar : (kSlots : Int) ≤ msOf e - w.curMs
  · simp [if_pos hfar] at h
  rw [if_neg hfar] at h
  refine ⟨by omega, ?_⟩
  rw [← TimerList.slot.inj h]
  split_ifs with hlt
  · rw [max_eq_right hlt.le]
  · rw [max_eq_left (not_lt.mp hlt)]

/-- The timers of `R` were put on the lists of their expiries, and nothing else. -/
structure Promoted (R : List Nat) (w w' : TimerWheel kMaxTimers) : Prop where
  lists : ∃ c, Links.Lists w'.links w'.head w'.owner c
  clock : SameClock w w'
  walkNext : w'.walkNext = w.walkNext
  slots : ∀ x, w'.pool.slots x = (w.pool.slots x).map fun t =>
    if x ∈ R then { t with list := w.listFor t.expiry } else t

theorem SameClock.trans {w₁ w₂ : TimerWheel kMaxTimers} (h : SameClock w w₁)
    (h' : SameClock w₁ w₂) : SameClock w w₂ :=
  ⟨h'.gen.trans h.gen, h'.released.trans h.released, h'.curMs.trans h.curMs,
    h'.firing.trans h.firing, h'.next.trans h.next, h'.nextStale.trans h.nextStale⟩

section Promote

variable {c : TimerList → List Nat}

/-- One timer of the overflow list moved into the wheel. -/
theorem promote_one {x : Nat} {t : Timer} {A R : List Nat}
    (h : Links.Lists w.links w.head w.owner c) (hc : c .overflow = A ++ x :: R)
    (hs : w.pool.slots x = some t) (hlist : t.list = .overflow) (hwalk : w.walkNext = none)
    (hfor : w.listFor t.expiry ≠ .overflow) :
    let w' := (w.unlink x t).link x { t with list := .unlinked }
    (∃ c', Links.Lists w'.links w'.head w'.owner c' ∧ c' .overflow = A ++ R) ∧ SameClock w w' ∧
      w'.walkNext = none ∧
      ∀ k, w'.pool.slots k =
        if k = x then some { t with list := w.listFor t.expiry } else w.pool.slots k := by
  have hne : t.list ≠ .unlinked := by simp [hlist]
  obtain ⟨hclock₁, hwalk₁, hp₁, -, -, -⟩ := w.unlink_spec x hne
  have hslots₁ : ∀ k, (w.unlink x t).pool.slots k =
      if k = x then some { t with list := .unlinked } else w.pool.slots k := by
    intro k
    rw [hp₁, slots_set hs]
  have hx := hslots₁ x
  rw [if_pos rfl] at hx
  have hl₁ := unlink_lists h hs hne (hlist ▸ hc : c t.list = A ++ x :: R)
  have hown : (w.unlink x t).owner x = none := by
    unfold owner
    rw [hx]
    rfl
  have hfor₁ : (w.unlink x t).listFor t.expiry = w.listFor t.expiry :=
    listFor_congr hclock₁.curMs t.expiry
  obtain ⟨hclock₂, hwalk₂, hp₂, -, -, -⟩ := (w.unlink x t).link_spec x { t with list := .unlinked }
  have hl₂ := link_lists (t := { t with list := .unlinked }) hl₁ hx hown
  refine ⟨⟨_, hl₂, ?_⟩, hclock₁.trans hclock₂, ?_, ?_⟩
  · rw [hfor₁, update_of_ne (Ne.symm hfor), hlist, update_self]
  · rw [hwalk₂, hwalk₁, hwalk]
    rfl
  intro k
  rw [hp₂, slots_set hx, hslots₁]
  rw [hfor₁]
  split_ifs with hk
  · rfl
  · rfl

/-- A minimum with one more. -/
theorem lowered (minMs : Option Int) (ms : Int) :
    (∃ m, (if beforeSome ms minMs then some ms else minMs) = some m ∧ m ≤ ms) ∧
      ∀ m, minMs = some m →
        ∃ m', (if beforeSome ms minMs then some ms else minMs) = some m' ∧ m' ≤ m := by
  split_ifs with hb
  · exact ⟨⟨ms, rfl, le_refl ms⟩, fun m hm => ⟨ms, rfl, (beforeSome_iff.mp hb m hm).le⟩⟩
  refine ⟨?_, fun m hm => ⟨m, hm, le_refl m⟩⟩
  cases minMs with
  | none => exact absurd rfl hb
  | some m =>
    refine ⟨m, rfl, ?_⟩
    simpa [beforeSome] using hb

/-- The loop of `promote_overflow`, over the timers `R` left of the list. -/
theorem promoteFrom_spec {A R : List Nat} {n : Nat} (minMs : Option Int)
    (h : Links.Lists w.links w.head w.owner c) (hc : c .overflow = A ++ R) (hn : R.length < n)
    (hwalk : w.walkNext = none) :
    Promoted R w (promoteFrom n w R.head? minMs).1 ∧
      (∀ m, minMs = some m → ∃ m', (promoteFrom n w R.head? minMs).2 = some m' ∧ m' ≤ m) ∧
      ∀ x ∈ R, ∀ t, w.pool.slots x = some t → w.listFor t.expiry = .overflow →
        ∃ m', (promoteFrom n w R.head? minMs).2 = some m' ∧ m' ≤ msOf t.expiry := by
  induction R generalizing w c A n minMs with
  | nil =>
    cases n with
    | zero => nomatch hn
    | succ n =>
      refine ⟨⟨⟨c, h⟩, ⟨rfl, rfl, rfl, rfl, rfl, rfl⟩, rfl, ?_⟩, ?_, ?_⟩
      · intro x
        simp [promoteFrom]
      · exact fun m hm => ⟨m, hm, le_refl m⟩
      · exact fun x hx => absurd hx not_mem_nil
  | cons x R ih =>
    cases n with
    | zero => nomatch hn
    | succ n =>
      have hmem : x ∈ c .overflow := by rw [hc]; simp
      have hown := (h.mem .overflow x).mp hmem
      obtain ⟨-, t, hs, hlist⟩ := owner_eq_some.mp hown
      have hnext : w.links.next x = R.head? := by
        have hchain := h.chain .overflow
        rw [hc] at hchain
        exact hchain.next_eq
      have hxR : x ∉ R := by
        have hnd := h.nodup .overflow
        rw [hc] at hnd
        exact (nodup_cons.mp (nodup_append.mp hnd).2.1).1
      have hlen : R.length < n := by simpa using hn
      by_cases hfor : w.listFor t.expiry = .overflow
      · -- Beyond the horizon still: it stays, and counts for the minimum.
        have hstep : promoteFrom (n + 1) w (some x) minMs = promoteFrom n w R.head?
            (if beforeSome (msOf t.expiry) minMs then some (msOf t.expiry) else minMs) := by
          have hfar := listFor_eq_overflow.mp hfor
          simp only [promoteFrom, hs, hnext]
          rw [if_neg (by omega)]
        have hc' : c .overflow = (A ++ [x]) ++ R := by rw [hc]; simp
        rw [head?_cons, hstep]
        obtain ⟨hprom, hkeep, hmin⟩ := ih
          (if beforeSome (msOf t.expiry) minMs then some (msOf t.expiry) else minMs)
          h hc' hlen hwalk
        obtain ⟨hlow, hlow'⟩ := lowered minMs (msOf t.expiry)
        refine ⟨⟨hprom.lists, hprom.clock, hprom.walkNext, ?_⟩, ?_, ?_⟩
        · intro k
          rw [hprom.slots k]
          by_cases hk : k = x
          · subst hk
            rw [hs, map_some, map_some, if_neg hxR, if_pos mem_cons_self, hfor, ← hlist]
          · simp [hk]
        · intro m hm
          obtain ⟨m₁, hm₁, hle₁⟩ := hlow' m hm
          obtain ⟨m₂, hm₂, hle₂⟩ := hkeep m₁ hm₁
          exact ⟨m₂, hm₂, le_trans hle₂ hle₁⟩
        · intro k hk u hu hov
          rcases mem_cons.mp hk with rfl | hk
          · rw [← Option.some.inj (hs.symm.trans hu)]
            obtain ⟨m₁, hm₁, hle₁⟩ := hlow
            obtain ⟨m₂, hm₂, hle₂⟩ := hkeep m₁ hm₁
            exact ⟨m₂, hm₂, le_trans hle₂ hle₁⟩
          · exact hmin k hk u hu hov
      · -- Within the horizon: it moves.
        have hstep : promoteFrom (n + 1) w (some x) minMs =
            promoteFrom n ((w.unlink x t).link x { t with list := .unlinked }) R.head? minMs := by
          have hnear : ¬ (kSlots : Int) ≤ msOf t.expiry - w.curMs :=
            fun hf => hfor (listFor_eq_overflow.mpr hf)
          simp only [promoteFrom, hs, hnext]
          rw [if_pos (by omega)]
        obtain ⟨⟨c', hl', hc'⟩, hclock, hwalk', hslots⟩ := promote_one h hc hs hlist hwalk hfor
        rw [head?_cons, hstep]
        generalize (w.unlink x t).link x { t with list := .unlinked } = w₁ at *
        obtain ⟨hprom, hkeep, hmin⟩ := ih minMs hl' hc' hlen hwalk'
        have hfor₁ : ∀ e, w₁.listFor e = w.listFor e := listFor_congr hclock.curMs
        refine ⟨⟨hprom.lists, hclock.trans hprom.clock, ?_, ?_⟩, hkeep, ?_⟩
        · rw [hprom.walkNext, hwalk', hwalk]
        · intro k
          rw [hprom.slots k, hslots]
          by_cases hk : k = x
          · subst hk
            rw [if_pos rfl, hs, map_some, map_some, if_neg hxR, if_pos mem_cons_self]
          · rw [if_neg hk]
            simp only [mem_cons, hk, false_or, hfor₁]
        · intro k hk u hu hov
          rcases mem_cons.mp hk with rfl | hk
          · rw [← Option.some.inj (hs.symm.trans hu)] at hov
            exact absurd hov hfor
          have hkx : k ≠ x := fun he => hxR (he ▸ hk)
          refine hmin k hk u ?_ ?_
          · rw [hslots, if_neg hkx]
            exact hu
          · rw [hfor₁]
            exact hov

end Promote

/-! ## The wheel when the walk starts -/

/-- The slots of the milliseconds from `m` up to `last`. -/
def Ahead (m last : Int) (s : Nat) : Prop := ∃ k, m ≤ k ∧ k ≤ last ∧ s = slotOf k

/-- No list has more nodes than the pool has slots. -/
theorem chain_length_le {c : TimerList → List Nat} (h : Links.Lists w.links w.head w.owner c)
    (l : TimerList) : (c l).length ≤ kMaxTimers := by
  have hsub : c l ⊆ List.range kMaxTimers := by
    intro x hx
    obtain ⟨-, t, hs, -⟩ := owner_eq_some.mp ((h.mem l x).mp hx)
    exact mem_range.mpr (lt_of_live hs)
  have hle := (subperm_of_subset (h.nodup l) hsub).length_le
  rw [length_range] at hle
  exact hle

/-- The list of a timer at the start of the walk. -/
def relist (w : TimerWheel kMaxTimers) (t : Timer) : TimerList :=
  if t.list = .overflow then w.listFor t.expiry else t.list

/-- The wheel at the start of the walk: the cursor is at most a turn behind, every
timer beyond the horizon of the cursor, and only those, is on the overflow list. -/
structure Prepared (nowMs : Int) (w w' : TimerWheel kMaxTimers) : Prop where
  lists : ∃ c, Links.Lists w'.links w'.head w'.owner c
  curMs : w'.curMs = max w.curMs (nowMs - kSlots)
  gen : w'.gen = w.gen
  released : w'.released = w.released
  firing : w'.firing = w.firing
  next : w'.next = w.next
  nextStale : w'.nextStale = w.nextStale
  walkNext : w'.walkNext = none
  slots : ∀ x, w'.pool.slots x = (w.pool.slots x).map fun t => { t with list := w'.relist t }
  minMs_le : ∀ x t, w'.pool.slots x = some t → t.list = .overflow →
    ∃ m, w'.overflowMinMs = some m ∧ m ≤ msOf t.expiry

/-- What holds between two polls. -/
def Resting (w : TimerWheel kMaxTimers) : Prop := w.firing = none ∧ Sound (.done w.curMs) w

theorem Resting.promoteOverflow_prepared {w₁ : TimerWheel kMaxTimers} {nowMs : Int}
    (h : Resting w) (hw₁ : w₁ = { w with curMs := max w.curMs (nowMs - kSlots) }) :
    Prepared nowMs w w₁.promoteOverflow := by
  obtain ⟨-, hsound⟩ := h
  obtain ⟨c, hc⟩ := hsound.wired
  have hlists : Links.Lists w₁.links w₁.head w₁.owner c := by
    rw [hw₁]
    exact hc.lists
  have hwalk : w₁.walkNext = none := by
    rw [hw₁]
    exact hsound.walkNext
  have hhead : w₁.overflow = (c .overflow).head? := hlists.head .overflow
  obtain ⟨hprom, -, hmin⟩ := promoteFrom_spec (A := []) none hlists rfl
    (Nat.lt_succ_of_le (chain_length_le hlists .overflow)) hwalk
  rw [← hhead] at hprom hmin
  have hmem : ∀ x t, w.pool.slots x = some t → (x ∈ c .overflow ↔ t.list = .overflow) := by
    intro x t ht
    rw [hc.lists.mem, owner_eq_some]
    constructor
    · rintro ⟨-, u, hu, hl⟩
      rw [Option.some.inj (ht.symm.trans hu)]
      exact hl
    · intro hl
      exact ⟨by simp, t, ht, hl⟩
  have hpool : w₁.pool = w.pool := by rw [hw₁]
  constructor
  · exact hprom.lists
  · show (promoteFrom (kMaxTimers + 1) w₁ w₁.overflow none).1.curMs = _
    rw [hprom.clock.curMs, hw₁]
  · exact hprom.clock.gen.trans (by rw [hw₁])
  · exact hprom.clock.released.trans (by rw [hw₁])
  · exact hprom.clock.firing.trans (by rw [hw₁])
  · exact hprom.clock.next.trans (by rw [hw₁])
  · exact hprom.clock.nextStale.trans (by rw [hw₁])
  · exact hprom.walkNext.trans hwalk
  · intro x
    have hx := hprom.slots x
    have hfor : ∀ e, w₁.promoteOverflow.listFor e = w₁.listFor e := listFor_congr hprom.clock.curMs
    show (promoteFrom (kMaxTimers + 1) w₁ w₁.overflow none).1.pool.slots x = _
    rw [hx, hpool]
    cases ht : w.pool.slots x with
    | none => rfl
    | some t =>
      rw [map_some, map_some]
      unfold relist
      by_cases hl : t.list = .overflow
      · rw [if_pos ((hmem x t ht).mpr hl), if_pos hl, hfor]
      · rw [if_neg (fun hm => hl ((hmem x t ht).mp hm)), if_neg hl]
  · intro x t ht hl
    have hx := hprom.slots x
    rw [hpool] at hx
    have ht' : (promoteFrom (kMaxTimers + 1) w₁ w₁.overflow none).1.pool.slots x = some t := ht
    rw [hx, map_eq_some_iff] at ht'
    obtain ⟨u, hu, hut⟩ := ht'
    split_ifs at hut with hov
    · subst hut
      exact hmin x hov u (by rw [hpool]; exact hu) hl
    · subst hut
      exact absurd ((hmem x u hu).mpr hl) hov

section Prepare

variable {nowMs : Int}

/-- Between polls a timer is not before the cursor. -/
theorem Resting.curMs_le {x : Nat} {t : Timer} (h : Resting w) (ht : w.pool.slots x = some t) :
    t.list ≠ .unlinked ∧ w.curMs ≤ msOf t.expiry ∧
      ∀ s, t.list = .slot s → s = slotOf (msOf t.expiry) ∧ msOf t.expiry < w.curMs + kSlots := by
  obtain ⟨hfiring, hsound⟩ := h
  obtain ⟨c, hc⟩ := hsound.wired
  have hp := hc.placed x t ht
  have hun : t.list ≠ .unlinked := by
    intro he
    simp [hp.unlinked_iff, hfiring] at he
  have hcur : w.curMs ≤ msOf t.expiry := by
    cases hl : t.list with
    | unlinked => exact absurd hl hun
    | overflow => exact (hp.overflow hl).1
    | slot s =>
      by_contra hlt
      rcases hp.due s hl (not_le.mp hlt) with hr | hr
      · exact absurd hr not_mem_nil
      · exact hr
  exact ⟨hun, hcur, fun s hl => hp.later s hl hcur⟩

theorem Resting.prepared_spec (h : Resting w) (hcur : w.curMs ≤ nowMs) :
    Prepared nowMs w (w.prepared nowMs) := by
  have hjump : (if (kSlots : Int) < nowMs - w.curMs
    then { w with curMs := nowMs - kSlots } else w) =
      { w with curMs := max w.curMs (nowMs - kSlots) } := by
    split_ifs with hlong
    · rw [max_eq_right (by omega)]
    · rw [max_eq_left (by omega)]
  unfold prepared
  rw [hjump]
  by_cases hmin : beforeSome (nowMs + kSlots - 1) w.overflowMinMs = true
  · rw [if_pos hmin]
    obtain ⟨c, hc⟩ := h.2.wired
    refine ⟨⟨c, hc.lists⟩, rfl, rfl, rfl, rfl, rfl, rfl, h.2.walkNext, ?_, ?_⟩
    · intro x
      cases ht : w.pool.slots x with
      | none => rfl
      | some t =>
        rw [map_some, Option.some.injEq]
        unfold relist
        by_cases hl : t.list = .overflow
        · obtain ⟨-, m, hm, hle⟩ := (hc.placed x t ht).overflow hl
          have hlt := beforeSome_iff.mp hmin m hm
          have hfar : listFor { w with curMs := max w.curMs (nowMs - kSlots) } t.expiry =
              .overflow := by
            apply listFor_eq_overflow.mpr
            dsimp only
            omega
          rw [if_pos hl, hfar, ← hl]
        · rw [if_neg hl]
    · exact fun x t ht hl => ((hc.placed x t ht).overflow hl).2
  · rw [if_neg hmin]
    exact h.promoteOverflow_prepared rfl

/-- The position of the walk before its first slot. -/
def startOf (w : TimerWheel kMaxTimers) (nowMs : Int) : WalkPos :=
  ⟨nowMs, 0, [], Ahead w.curMs nowMs⟩

theorem Resting.prepared_sound {w' : TimerWheel kMaxTimers} (h : Resting w)
    (hcur : w.curMs ≤ nowMs) (hprep : Prepared nowMs w w') : Sound (w'.startOf nowMs) w' := by
  obtain ⟨c, hc⟩ := hprep.lists
  obtain ⟨c₀, hc₀⟩ := h.2.wired
  have hcur' := hprep.curMs
  have hback : ∀ x u, w'.pool.slots x = some u →
      ∃ t, w.pool.slots x = some t ∧ { t with list := w'.relist t } = u := by
    intro x u hu
    rw [hprep.slots, map_eq_some_iff] at hu
    exact hu
  constructor
  · refine ⟨c, hc, ⟨c (.slot 0), (append_nil _).symm⟩, ?_, ?_, ?_⟩
    · show w'.curMs ≤ nowMs
      rw [hcur']
      omega
    · intro x u hu
      obtain ⟨t, ht, rfl⟩ := hback x u hu
      obtain ⟨hun, hge, hslot⟩ := h.curMs_le ht
      have hcases : (∃ s, t.list = .slot s ∧ w'.relist t = .slot s) ∨
          (t.list = .overflow ∧ w'.relist t = w'.listFor t.expiry) := by
        unfold relist
        cases hl : t.list with
        | unlinked => exact absurd hl hun
        | overflow => exact .inr ⟨rfl, if_pos rfl⟩
        | slot s => exact .inl ⟨s, rfl, by simp⟩
      refine ⟨(hc₀.placed x t ht).period_pos, ?_, ?_, ?_, ?_⟩
      · rw [hprep.firing, h.1]
        constructor
        · intro he
          rcases hcases with ⟨s, -, hr⟩ | ⟨-, hr⟩
          · simp [hr] at he
          · rw [hr] at he
            exact absurd he (w'.listFor_ne_unlinked _)
        · nofun
      · intro s hs hms
        dsimp only [startOf] at hms ⊢
        rcases hcases with ⟨s', hl, hr⟩ | ⟨-, hr⟩
        · obtain ⟨heq, hlt⟩ := hslot s' hl
          rw [hr] at hs
          rw [← TimerList.slot.inj hs]
          exact ⟨heq, by omega⟩
        · obtain ⟨hlt, heq⟩ := slot_of_listFor (hr ▸ hs)
          rw [max_eq_left (by omega)] at heq
          exact ⟨heq, by omega⟩
      · intro s hs hms
        right
        dsimp only [startOf] at hms ⊢
        rcases hcases with ⟨s', hl, hr⟩ | ⟨-, hr⟩
        · obtain ⟨heq, -⟩ := hslot s' hl
          rw [hr] at hs
          rw [← TimerList.slot.inj hs, heq]
          by_cases hin : w'.curMs ≤ msOf t.expiry
          · exact ⟨msOf t.expiry, hin, hms.le, rfl⟩
          · -- The cursor jumped past it: the walk meets every slot.
            obtain ⟨k, hk, hk', hkeq⟩ := exists_slotOf_eq (msOf t.expiry) w'.curMs
            exact ⟨k, hk, by omega, hkeq⟩
        · obtain ⟨-, heq⟩ := slot_of_listFor (hr ▸ hs)
          exact ⟨max (msOf t.expiry) w'.curMs, le_max_right _ _, by omega, heq⟩
      · intro hs
        dsimp only [startOf]
        rcases hcases with ⟨s', -, hr⟩ | ⟨-, hr⟩
        · simp [hr] at hs
        · have hfar := listFor_eq_overflow.mp (hr ▸ hs)
          exact ⟨by omega, hprep.minMs_le x { t with list := w'.relist t } hu hs⟩
    · rw [hprep.gen, hprep.released]
      exact hc₀.gen
  · exact hprep.walkNext
  · intro x hx
    simp [hprep.firing, h.1] at hx
  · intro x u hu hx
    obtain ⟨t, ht, rfl⟩ := hback x u hu
    rw [hprep.firing] at hx
    exact h.2.active x t ht hx
  · intro hstale x u hu ha
    obtain ⟨t, ht, rfl⟩ := hback x u hu
    rw [hprep.nextStale] at hstale
    rw [hprep.next]
    exact h.2.next hstale x t ht ha

end Prepare

end TimerWheel

/-! ## What a poll did to one timer -/

namespace TimerEvent

variable {kMaxTimers : Nat}
variable (e : TimerEvent kMaxTimers)

/-- The poll's function is called for the timer. -/
def fires (key : Nat × Nat) : Prop :=
  match e with
  | .fired k _ _ _ => k = key
  | .cancel _ _ => False

/-- A callback cancels the timer. -/
def cancels (key : Nat × Nat) : Prop :=
  match e with
  | .fired _ _ _ _ => False
  | .cancel w id =>
    (w.cancel id).2 = true ∧ w.keyOf (indexOf kMaxTimers id) = key

end TimerEvent

/-- A callback's timer is not due before the callback. -/
def TimerCall.NonNeg : TimerCall → Prop
  | .add period _ _ => 0 ≤ period
  | .cancel _ => True
  | .nextExpiry => True

namespace TimerTrace

variable {kMaxTimers : Nat}

/-- The poll's function is called for the timer once, and no callback cancelled it
before. -/
def FiredOnce (es : TimerTrace kMaxTimers) (key : Nat × Nat) (id userData : Nat)
    (expiry : Timestamp) : Prop :=
  ∃ before after, es = before ++ .fired key id userData expiry :: after ∧
    (∀ e ∈ before, ¬ e.fires key ∧ ¬ e.cancels key) ∧ ∀ e ∈ after, ¬ e.fires key

/-- A callback cancelled the timer, and it was not fired. -/
def CancelledUnfired (es : TimerTrace kMaxTimers) (key : Nat × Nat) : Prop :=
  (∃ e ∈ es, e.cancels key) ∧ ∀ e ∈ es, ¬ e.fires key

/-- The timer's one event. -/
def Settled (es : TimerTrace kMaxTimers) (key : Nat × Nat) (id userData : Nat)
    (expiry : Timestamp) : Prop :=
  FiredOnce es key id userData expiry ∨ CancelledUnfired es key

variable {es : TimerTrace kMaxTimers} {key : Nat × Nat} {id userData : Nat} {expiry : Timestamp}

/-- A settled timer stays so while it is not fired again. -/
theorem Settled.append (h : Settled es key id userData expiry) {more : TimerTrace kMaxTimers}
    (hmore : ∀ e ∈ more, ¬ e.fires key) : Settled (es ++ more) key id userData expiry := by
  rcases h with ⟨before, after, heq, hbefore, hafter⟩ | ⟨⟨e, he, hcan⟩, hnone⟩
  · refine .inl ⟨before, after ++ more, ?_, hbefore, ?_⟩
    · rw [heq, append_assoc, cons_append]
    · exact forall_mem_append.mpr ⟨hafter, hmore⟩
  · refine .inr ⟨⟨e, mem_append_left more he, hcan⟩, ?_⟩
    exact forall_mem_append.mpr ⟨hnone, hmore⟩

end TimerTrace

namespace TimerWheel

variable {kMaxTimers : Nat} {w : TimerWheel kMaxTimers}
variable {t : Timer}

/-- A due timer the walk has still to meet: nothing has happened to it. -/
structure Pending (v : WalkPos) (idx r : Nat) (t₀ : Timer) (past : TimerTrace kMaxTimers)
    (w : TimerWheel kMaxTimers) : Prop where
  released : w.released idx = r
  slot : ∃ t s, w.pool.slots idx = some t ∧ t.expiry = t₀.expiry ∧ t.userData = t₀.userData ∧
    t.list = .slot s ∧ (idx ∈ v.rest ∨ v.ahead s)
  untouched : ∀ e ∈ past, ¬ e.fires (idx, r) ∧ ¬ e.cancels (idx, r)

/-- A due timer that is dealt with and cannot fire again. -/
structure Ended (now : Timestamp) (idx r : Nat) (t₀ : Timer) (past : TimerTrace kMaxTimers)
    (w : TimerWheel kMaxTimers) : Prop where
  settled : past.Settled (idx, r) (idAt kMaxTimers (r % kGenerations kMaxTimers) idx) t₀.userData
    t₀.expiry
  gone : r < w.released idx ∨ (w.released idx = r ∧
    ∃ t, w.pool.slots idx = some t ∧ (w.firing = some idx ∨ now < t.expiry))

/-- A due timer on the overflow list, which the walk does not meet. -/
structure Aside (idx r : Nat) (past : TimerTrace kMaxTimers)
    (w : TimerWheel kMaxTimers) : Prop where
  unfired : ∀ e ∈ past, ¬ e.fires (idx, r)
  stays : r < w.released idx ∨
    (w.released idx = r ∧ ∃ t, w.pool.slots idx = some t ∧ t.list = .overflow)

/-- A timer of the poll's own millisecond when the poll comes a turn of the wheel or
more after the last one. -/
def Late (w : TimerWheel kMaxTimers) (now : Timestamp) (t : Timer) : Prop :=
  (kSlots : Int) ≤ msOf now - w.curMs ∧ msOf t.expiry = msOf now

/-- A walk that started from `w₀`, at position `v`, after the events `past`. -/
structure Walk (w₀ : TimerWheel kMaxTimers) (now : Timestamp) (v : WalkPos)
    (past : TimerTrace kMaxTimers) (w : TimerWheel kMaxTimers) : Prop where
  sound : Sound v w
  base : v.base = msOf now
  fates : ∀ idx t₀, w₀.pool.slots idx = some t₀ → t₀.expiry ≤ now → ¬ w₀.Late now t₀ →
    Pending v idx (w₀.released idx) t₀ past w ∨ Ended now idx (w₀.released idx) t₀ past w
  asides : ∀ idx t₀, w₀.pool.slots idx = some t₀ → t₀.expiry ≤ now → w₀.Late now t₀ →
    Aside idx (w₀.released idx) past w
  due : ∀ key id userData expiry, .fired key id userData expiry ∈ past → expiry ≤ now
  gens : ∀ w' id, .cancel w' id ∈ past → ∀ x, w'.gen x = w'.released x % kGenerations kMaxTimers

variable {now : Timestamp} {v : WalkPos} {idx r : Nat} {t₀ : Timer}
  {past : TimerTrace kMaxTimers} {w₀ w' : TimerWheel kMaxTimers}

/-! ### Calls of a callback -/

theorem Pending.add {y : Nat} (h : Pending v idx r t₀ past w) (hadd : Added w w' y t) :
    Pending v idx r t₀ past w' := by
  obtain ⟨u, s, hu, hrest⟩ := h.slot
  have hne : idx ≠ y := by
    rintro rfl
    simp [hadd.fresh] at hu
  refine ⟨?_, ⟨u, s, ?_, hrest⟩, h.untouched⟩
  · rw [hadd.released]
    exact h.released
  · rw [hadd.slots, if_neg hne]
    exact hu

theorem Ended.add {y : Nat} (h : Ended now idx r t₀ past w) (hadd : Added w w' y t) :
    Ended now idx r t₀ past w' := by
  refine ⟨h.settled, ?_⟩
  rw [hadd.released, hadd.firing]
  refine h.gone.imp_right fun ⟨hr, u, hu, hgone⟩ => ⟨hr, u, ?_, hgone⟩
  have hne : idx ≠ y := by
    rintro rfl
    simp [hadd.fresh] at hu
  rw [hadd.slots, if_neg hne]
  exact hu

theorem Aside.add {y : Nat} (h : Aside idx r past w) (hadd : Added w w' y t) :
    Aside idx r past w' := by
  refine ⟨h.unfired, ?_⟩
  rw [hadd.released]
  refine h.stays.imp_right fun ⟨hr, u, hu, hl⟩ => ⟨hr, u, ?_, hl⟩
  have hne : idx ≠ y := by
    rintro rfl
    simp [hadd.fresh] at hu
  rw [hadd.slots, if_neg hne]
  exact hu

theorem Walk.add (h : Walk w₀ now v past w) {period : Int} (hper : 0 ≤ period) (repeats : Bool)
    (userData : Nat) : Walk w₀ now v past (w.add now period repeats userData).1 := by
  refine ⟨h.sound.add (by rw [h.base]) hper, h.base, ?_, ?_, h.due, h.gens⟩
  · intro idx t₀ ht₀ hdue hlate
    rcases w.add_cases now period repeats userData with hsame | ⟨y, hadd⟩
    · rw [hsame]
      exact h.fates idx t₀ ht₀ hdue hlate
    · exact (h.fates idx t₀ ht₀ hdue hlate).imp (fun hp => hp.add hadd) (fun he => he.add hadd)
  · intro idx t₀ ht₀ hdue hlate
    rcases w.add_cases now period repeats userData with hsame | ⟨y, hadd⟩
    · rw [hsame]
      exact h.asides idx t₀ ht₀ hdue hlate
    · exact (h.asides idx t₀ ht₀ hdue hlate).add hadd

/-- The event of a call of `cancel`. -/
theorem not_fires_cancel (w : TimerWheel kMaxTimers) (id : Nat) (key : Nat × Nat) :
    ∀ e ∈ [TimerEvent.cancel w id], ¬ e.fires key := by
  intro e he
  rw [mem_singleton.mp he]
  exact fun hf => hf

/-- Events that do not fire a timer leave it unfired. -/
theorem unfired_append {key : Nat × Nat} {more : TimerTrace kMaxTimers}
    (h : ∀ e ∈ past, ¬ e.fires key) (hmore : ∀ e ∈ more, ¬ e.fires key) :
    ∀ e ∈ past ++ more, ¬ e.fires key := by
  exact forall_mem_append.mpr ⟨h, hmore⟩

/-- A call of `cancel` that refuses. -/
theorem Walk.cancel_refused (h : Walk w₀ now v past w) {id : Nat} (hc : w.cancel id = (w, false)) :
    Walk w₀ now v (past ++ [.cancel w id]) w := by
  have hnot : ∀ key, ¬ (TimerEvent.cancel w id).cancels key := by
    rintro key ⟨htrue, -⟩
    simp [hc] at htrue
  obtain ⟨c, hw⟩ := h.sound.wired
  refine ⟨h.sound, h.base, ?_, ?_, ?_, ?_⟩
  · intro idx t₀ ht₀ hdue hlate
    rcases h.fates idx t₀ ht₀ hdue hlate with hp | he
    · refine .inl ⟨hp.released, hp.slot, ?_⟩
      exact forall_mem_append.mpr ⟨hp.untouched, forall_mem_singleton.mpr ⟨fun hf => hf, hnot _⟩⟩
    · exact .inr ⟨he.settled.append (not_fires_cancel w id _), he.gone⟩
  · intro idx t₀ ht₀ hdue hlate
    have ha := h.asides idx t₀ ht₀ hdue hlate
    exact ⟨unfired_append ha.unfired (not_fires_cancel w id _), ha.stays⟩
  · intro key i u e hmem
    rcases mem_append.mp hmem with hmem | hmem
    · exact h.due key i u e hmem
    · exact absurd (mem_singleton.mp hmem) (by simp)
  · intro w' i hmem
    rcases mem_append.mp hmem with hmem | hmem
    · exact h.gens w' i hmem
    · rw [(TimerEvent.cancel.inj (mem_singleton.mp hmem)).1]
      exact hw.gen

/-- A timer that is cancelled while it is pending. -/
theorem Pending.cancelled (h : Pending v idx r t₀ past w) (hsound : Sound v w) {id : Nat}
    (hid : indexOf kMaxTimers id = idx) (ht : w.pool.slots idx = some t)
    (hc : w.cancel id = (w.cancelled idx t, true)) :
    Ended now idx r t₀ (past ++ [.cancel w id]) (w.cancelled idx t) := by
  have hsp := hsound.cancelled_spec ht
  have hnf : w.firing ≠ some idx := by
    intro hf
    obtain ⟨u, s, hu, -, -, hl, -⟩ := h.slot
    have hun := (hsound.list_eq_iff hu).mpr hf
    simp [hl] at hun
  constructor
  · right
    refine ⟨⟨.cancel w id, by simp, ?_, ?_⟩, ?_⟩
    · rw [hc]
    · rw [hid, keyOf, h.released]
    intro e he
    rcases mem_append.mp he with he | he
    · exact (h.untouched e he).1
    · exact not_fires_cancel w id _ e he
  · left
    rw [hsp.released, if_neg hnf, update_self, h.released]
    exact Nat.lt_succ_self r

/-- Another timer is cancelled. -/
theorem Pending.cancelled_other (h : Pending v idx r t₀ past w) (hsound : Sound v w) {id y : Nat}
    (hid : indexOf kMaxTimers id = y) (ht : w.pool.slots y = some t) (hne : idx ≠ y) :
    Pending { v with rest := v.rest.erase y } idx r t₀ (past ++ [.cancel w id])
      (w.cancelled y t) := by
  have hsp := hsound.cancelled_spec ht
  obtain ⟨u, s, hu, hexp, hdata, hl, hmet⟩ := h.slot
  constructor
  · rw [hsp.released]
    split
    · exact h.released
    · rw [update_of_ne hne]
      exact h.released
  · refine ⟨u, s, ?_, hexp, hdata, hl, hmet.imp_left (mem_erase_of_ne hne).mpr⟩
    rw [hsp.slots idx hne]
    exact hu
  intro e he
  rcases mem_append.mp he with he | he
  · exact h.untouched e he
  rw [mem_singleton.mp he]
  refine ⟨fun hf => hf, ?_⟩
  rintro ⟨-, hkey⟩
  rw [hid] at hkey
  exact hne (congrArg Prod.fst hkey).symm

theorem Ended.cancelled (h : Ended now idx r t₀ past w) (hsound : Sound v w) {id y : Nat}
    (ht : w.pool.slots y = some t) :
    Ended now idx r t₀ (past ++ [.cancel w id]) (w.cancelled y t) := by
  have hsp := hsound.cancelled_spec ht
  refine ⟨h.settled.append (not_fires_cancel w id _), ?_⟩
  rw [hsp.firing, hsp.released]
  split_ifs with hf
  · refine h.gone.imp_right fun ⟨hr, u, hu, hgone⟩ => ⟨hr, ?_⟩
    by_cases hy : idx = y
    · subst hy
      rw [hsp.slot, if_pos hf]
      exact ⟨_, rfl, .inl hf⟩
    · rw [hsp.slots idx hy]
      exact ⟨u, hu, hgone⟩
  · by_cases hy : idx = y
    · subst hy
      rw [update_self]
      left
      rcases h.gone with hlt | ⟨hr, -⟩
      · exact Nat.lt_succ_of_lt hlt
      · rw [hr]
        exact Nat.lt_succ_self r
    · rw [update_of_ne hy, hsp.slots idx hy]
      exact h.gone

theorem Aside.cancelled (h : Aside idx r past w) (hsound : Sound v w) {id y : Nat}
    (ht : w.pool.slots y = some t) : Aside idx r (past ++ [.cancel w id]) (w.cancelled y t) := by
  have hsp := hsound.cancelled_spec ht
  refine ⟨unfired_append h.unfired (not_fires_cancel w id _), ?_⟩
  rw [hsp.released]
  by_cases hy : idx = y
  · subst hy
    rcases h.stays with hlt | ⟨hr, u, hu, hl⟩
    · left
      split
      · exact hlt
      · rw [update_self]
        exact Nat.lt_succ_of_lt hlt
    · have hnf : w.firing ≠ some idx := by
        intro hf
        have hun := (hsound.list_eq_iff hu).mpr hf
        simp [hl] at hun
      left
      rw [if_neg hnf, update_self, hr]
      exact Nat.lt_succ_self r
  · rw [hsp.slots idx hy]
    split
    · exact h.stays
    · rw [update_of_ne hy]
      exact h.stays

/-- A call of `cancel` that takes a timer out. -/
theorem Walk.cancelled (h : Walk w₀ now v past w) {id y : Nat}
    (hid : indexOf kMaxTimers id = y) (ht : w.pool.slots y = some t)
    (hc : w.cancel id = (w.cancelled y t, true)) :
    Walk w₀ now { v with rest := v.rest.erase y } (past ++ [.cancel w id]) (w.cancelled y t) := by
  obtain ⟨c, hw⟩ := h.sound.wired
  refine ⟨h.sound.cancelled ht, h.base, ?_, ?_, ?_, ?_⟩
  · intro idx t₀ ht₀ hdue hlate
    rcases h.fates idx t₀ ht₀ hdue hlate with hp | he
    · by_cases hy : idx = y
      · subst hy
        exact .inr (hp.cancelled h.sound hid ht hc)
      · exact .inl (hp.cancelled_other h.sound hid ht hy)
    · exact .inr (he.cancelled h.sound ht)
  · exact fun idx t₀ ht₀ hdue hlate => (h.asides idx t₀ ht₀ hdue hlate).cancelled h.sound ht
  · intro key i u e hmem
    rcases mem_append.mp hmem with hmem | hmem
    · exact h.due key i u e hmem
    · exact absurd (mem_singleton.mp hmem) (by simp)
  · intro w' i hmem
    rcases mem_append.mp hmem with hmem | hmem
    · exact h.gens w' i hmem
    · rw [(TimerEvent.cancel.inj (mem_singleton.mp hmem)).1]
      exact hw.gen

theorem Walk.nextExpiry (h : Walk w₀ now v past w) : Walk w₀ now v past w.nextExpiry.1 := by
  obtain ⟨f1, -, -, -, -, -, f7, f8, -⟩ := w.nextExpiry_frame
  refine ⟨h.sound.nextExpiry, h.base, ?_, ?_, h.due, h.gens⟩
  · intro idx t₀ ht₀ hdue hlate
    refine (h.fates idx t₀ ht₀ hdue hlate).imp (fun hp => ?_) (fun he => ?_)
    · refine ⟨?_, ?_, hp.untouched⟩
      · rw [f7]
        exact hp.released
      · rw [f1]
        exact hp.slot
    · refine ⟨he.settled, ?_⟩
      rw [f1, f7, f8]
      exact he.gone
  · intro idx t₀ ht₀ hdue hlate
    have ha := h.asides idx t₀ ht₀ hdue hlate
    refine ⟨ha.unfired, ?_⟩
    rw [f1, f7]
    exact ha.stays

/-- The walk after a callback's calls: less may be left to meet, and the same timer is
firing. -/
def Walk.Continues (w₀ : TimerWheel kMaxTimers) (now : Timestamp) (v : WalkPos)
    (w : TimerWheel kMaxTimers) (past : TimerTrace kMaxTimers)
    (w' : TimerWheel kMaxTimers) : Prop :=
  ∃ rest, rest.length ≤ v.rest.length ∧ Walk w₀ now { v with rest := rest } past w' ∧
    w'.firing = w.firing ∧ w'.curMs = w.curMs

theorem Walk.callOne (h : Walk w₀ now v past w) {call : TimerCall} (hcall : call.NonNeg) :
    Continues w₀ now v w (past ++ (w.callOne now call).2) (w.callOne now call).1 := by
  cases call with
  | add period repeats userData =>
    refine ⟨v.rest, le_refl _, ?_, ?_⟩
    · show Walk w₀ now v (past ++ []) (w.add now period repeats userData).1
      rw [append_nil]
      exact h.add hcall repeats userData
    rcases w.add_cases now period repeats userData with hsame | ⟨y, hadd⟩
    · show (w.add now period repeats userData).1.firing = _ ∧
        (w.add now period repeats userData).1.curMs = _
      rw [hsame]
      exact ⟨rfl, rfl⟩
    · exact ⟨hadd.firing, hadd.curMs⟩
  | cancel id =>
    rcases w.cancel_cases id with hc | ⟨t, -, ht, -, hc⟩
    · have heq : w.callOne now (.cancel id) = (w, [.cancel w id]) := by
        simp only [TimerWheel.callOne, hc]
      rw [heq]
      exact ⟨v.rest, le_refl _, h.cancel_refused hc, rfl, rfl⟩
    · have heq : w.callOne now (.cancel id) =
          (w.cancelled (indexOf kMaxTimers id) t, [.cancel w id]) := by
        simp only [TimerWheel.callOne, hc]
      have hsp := h.sound.cancelled_spec ht
      rw [heq]
      exact ⟨_, length_erase_le, h.cancelled rfl ht hc, hsp.firing, hsp.curMs⟩
  | nextExpiry =>
    obtain ⟨-, -, -, f4, -, -, -, f8, -⟩ := w.nextExpiry_frame
    refine ⟨v.rest, le_refl _, ?_, f8, f4⟩
    show Walk w₀ now v (past ++ []) w.nextExpiry.1
    rw [append_nil]
    exact h.nextExpiry

theorem Walk.callAll (h : Walk w₀ now v past w) {calls : List TimerCall}
    (hcalls : ∀ call ∈ calls, call.NonNeg) :
    Continues w₀ now v w (past ++ (w.callAll now calls).2) (w.callAll now calls).1 := by
  induction calls generalizing v past w with
  | nil =>
    refine ⟨v.rest, le_refl _, ?_, rfl, rfl⟩
    simp only [callAll, append_nil]
    exact h
  | cons call calls ih =>
    obtain ⟨rest₁, hlen₁, h₁, hf₁, hc₁⟩ := h.callOne (hcalls call mem_cons_self)
    obtain ⟨rest₂, hlen₂, h₂, hf₂, hc₂⟩ := ih h₁ fun c hc => hcalls c (mem_cons_of_mem _ hc)
    refine ⟨rest₂, le_trans hlen₂ hlen₁, ?_, hf₂.trans hf₁, hc₂.trans hc₁⟩
    simp only [callAll]
    rw [← append_assoc]
    exact h₂

/-! ### Firing -/

section Fire

variable {x : Nat} {t : Timer} {rest : List Nat}

/-- The wheel while the callback of a timer runs. -/
def firingAt (w : TimerWheel kMaxTimers) (x : Nat) (t : Timer) : TimerWheel kMaxTimers :=
  { { w with nextStale := true }.unlink x t with firing := some x }

/-- A timer the walk meets is on a list, once. -/
theorem Walk.met (h : Walk w₀ now v past { w with walkNext := v.rest.head? })
    (hrest : v.rest = x :: rest) (ht : w.pool.slots x = some t) :
    t.list = .slot v.slot ∧ x ∉ rest ∧ w.links.next x = rest.head? := by
  obtain ⟨c, hc⟩ := h.sound.wired
  obtain ⟨P, hP⟩ := hc.split
  have hmem : x ∈ c (.slot v.slot) := by
    rw [hP, hrest]
    simp
  obtain ⟨-, u, hu, hl⟩ := owner_eq_some.mp ((hc.lists.mem _ x).mp hmem)
  refine ⟨?_, ?_, ?_⟩
  · have hut : t = u := Option.some.inj (ht.symm.trans hu)
    rw [hut, hl]
  · have hnd := hc.lists.nodup (.slot v.slot)
    rw [hP, hrest] at hnd
    exact (nodup_cons.mp (nodup_append.mp hnd).2.1).1
  · have hchain := hc.lists.chain (.slot v.slot)
    rw [hP, hrest] at hchain
    exact hchain.next_eq

/-- The wheel of a starting callback, field by field. -/
theorem firingAt_spec (ht : w.pool.slots x = some t) (hlist : t.list ≠ .unlinked)
    (hnext : w.links.next x = rest.head?) (hx : x ∉ rest) :
    let w' := firingAt { w with walkNext := w.links.next x } x t
    w'.walkNext = rest.head? ∧ w'.released = w.released ∧ w'.gen = w.gen ∧ w'.curMs = w.curMs ∧
      w'.nextStale = true ∧
      ∀ k, w'.pool.slots k =
        if k = x then some { t with list := .unlinked } else w.pool.slots k := by
  obtain ⟨hclock, hwalk, hp, -, -, -⟩ := unlink_spec
    { w with walkNext := w.links.next x, nextStale := true } x hlist
  dsimp only at hwalk
  have hne : w.links.next x ≠ some x := by
    intro he
    rw [hnext] at he
    exact hx (mem_of_head? he)
  rw [if_neg hne] at hwalk
  refine ⟨hwalk.trans hnext, hclock.released, hclock.gen, hclock.curMs, hclock.nextStale, ?_⟩
  · intro k
    show (TimerWheel.unlink { w with walkNext := w.links.next x, nextStale := true } x t).pool.slots
      k = _
    rw [hp, slots_set ht]

/-- The walk when the callback of the timer it has met starts. -/
theorem Walk.firingAt (h : Walk w₀ now v past { w with walkNext := v.rest.head? })
    (hrest : v.rest = x :: rest) (hfree : w.firing = none) (ht : w.pool.slots x = some t)
    (hdue : t.expiry ≤ now) :
    Walk w₀ now { v with rest := rest }
      (past ++ [.fired (w.keyOf x) (w.idOf x) t.userData t.expiry])
      (firingAt { w with walkNext := w.links.next x } x t) := by
  obtain ⟨hslot, hx, hnext⟩ := h.met hrest ht
  have hlist : t.list ≠ .unlinked := by simp [hslot]
  obtain ⟨hwalk, hrel, -, -, hstale, hslots⟩ := firingAt_spec ht hlist hnext hx
  obtain ⟨c, hc⟩ := h.sound.wired
  have hfree' : ∀ y, w.firing ≠ some y := fun y hy => absurd (hfree ▸ hy) (by simp)
  have hper := (hc.placed x t ht).period_pos
  have hw₁ : Wired v (fun y => w.firing = some y)
      { w with walkNext := w.links.next x, nextStale := true } c :=
    hc.congr rfl rfl rfl rfl rfl rfl rfl
  obtain ⟨c', hc'⟩ := hw₁.unlink ht (hfree' x) hper
  have herase : v.rest.erase x = rest := by rw [hrest, erase_cons_head]
  rw [herase] at hc'
  have hloose : (fun y => w.firing = some y ∨ y = x) = fun y => some x = some y := by
    funext y
    refine propext ⟨fun hy => ?_, fun hy => .inr (Option.some.inj hy).symm⟩
    rw [hy.resolve_left (hfree' y)]
  rw [hloose] at hc'
  constructor
  · refine ⟨⟨c', hc'.congr rfl rfl rfl rfl rfl rfl rfl⟩, hwalk, ?_, ?_, ?_⟩
    · intro y hy
      have hyx : x = y := Option.some.inj hy
      rw [hslots, if_pos hyx.symm]
      exact ⟨_, rfl⟩
    · intro y u hu hy
      have hyx : y ≠ x := fun he => hy (by rw [he]; rfl)
      rw [hslots, if_neg hyx] at hu
      exact h.sound.active y u hu (hfree' y)
    · intro hst
      simp [hstale] at hst
  · exact h.base
  · intro idx t₀ ht₀ hd₀ hlate
    rcases h.fates idx t₀ ht₀ hd₀ hlate with hp | he
    · obtain ⟨u, s, hu, hexp, hdata, hl, hmet⟩ := hp.slot
      by_cases hidx : idx = x
      · -- The timer itself fires.
        subst hidx
        right
        have hut : t = u := Option.some.inj (ht.symm.trans hu)
        subst hut
        refine ⟨.inl ⟨past, [], ?_, hp.untouched, ?_⟩, .inr ⟨?_, ?_⟩⟩
        · have hid : w.idOf idx = idAt kMaxTimers
            (w₀.released idx % kGenerations kMaxTimers) idx := by
            have hg : w.gen idx = w.released idx % kGenerations kMaxTimers := hc.gen idx
            have hr : w.released idx = w₀.released idx := hp.released
            rw [idOf, hg, hr]
          have hkey : w.keyOf idx = (idx, w₀.released idx) := by
            have hr : w.released idx = w₀.released idx := hp.released
            rw [keyOf, hr]
          rw [hid, hkey, hexp, hdata]
        · exact fun e he => absurd he not_mem_nil
        · rw [hrel]
          exact hp.released
        · exact ⟨_, by rw [hslots, if_pos rfl], .inl rfl⟩
      · left
        refine ⟨?_, ⟨u, s, ?_, hexp, hdata, hl, ?_⟩, ?_⟩
        · rw [hrel]
          exact hp.released
        · rw [hslots, if_neg hidx]
          exact hu
        · refine hmet.imp_left fun hm => ?_
          rw [hrest] at hm
          exact (mem_cons.mp hm).resolve_left hidx
        · intro e hmem
          rcases mem_append.mp hmem with hmem | hmem
          · exact hp.untouched e hmem
          · rw [mem_singleton.mp hmem]
            refine ⟨fun hf => hidx (congrArg Prod.fst hf).symm, fun hf => hf⟩
    · -- An ended timer is not the one that fires.
      right
      have hkey : w.keyOf x ≠ (idx, w₀.released idx) := by
        intro hk
        have hxi : x = idx := congrArg Prod.fst hk
        have hr : w.released x = w₀.released idx := congrArg Prod.snd hk
        subst hxi
        rcases he.gone with hlt | ⟨-, u, hu, hfire | hlater⟩
        · have hlt' : w₀.released x < w.released x := hlt
          omega
        · exact hfree' x hfire
        · rw [Option.some.inj (ht.symm.trans hu)] at hdue
          exact absurd hlater (not_lt.mpr hdue)
      refine ⟨he.settled.append ?_, ?_⟩
      · intro e hmem
        rw [mem_singleton.mp hmem]
        exact hkey
      rw [hrel]
      refine he.gone.imp_right fun ⟨hr, u, hu, hgone⟩ => ⟨hr, ?_⟩
      rw [hslots]
      split_ifs with hidx
      · rw [hidx]
        exact ⟨_, rfl, .inl rfl⟩
      · exact ⟨u, hu, hgone.imp_left fun hf => absurd hf (hfree' idx)⟩
  · intro idx t₀ ht₀ hd₀ hlate
    have ha := h.asides idx t₀ ht₀ hd₀ hlate
    have hstays : w₀.released idx < w.released idx ∨ (w.released idx = w₀.released idx ∧
        ∃ t, w.pool.slots idx = some t ∧ t.list = .overflow) := ha.stays
    refine ⟨unfired_append ha.unfired ?_, ?_⟩
    · intro e hmem
      rw [mem_singleton.mp hmem]
      intro hk
      have hxi : x = idx := congrArg Prod.fst hk
      have hr : w.released x = w₀.released idx := congrArg Prod.snd hk
      subst hxi
      rcases hstays with hlt | ⟨-, u, hu, hl⟩
      · omega
      · simp [← Option.some.inj (ht.symm.trans hu), hslot] at hl
    · rw [hrel]
      refine hstays.imp_right fun ⟨hr, u, hu, hl⟩ => ⟨hr, u, ?_, hl⟩
      have hidx : idx ≠ x := by
        rintro rfl
        simp [← Option.some.inj (ht.symm.trans hu), hslot] at hl
      rw [hslots, if_neg hidx]
      exact hu
  · intro key i u e hmem
    rcases mem_append.mp hmem with hmem | hmem
    · exact h.due key i u e hmem
    · obtain ⟨-, -, -, rfl⟩ := TimerEvent.fired.inj (mem_singleton.mp hmem)
      exact hdue
  · intro w' i hmem
    rcases mem_append.mp hmem with hmem | hmem
    · exact h.gens w' i hmem
    · exact absurd (mem_singleton.mp hmem) (by simp)

/-- A timer after its callback: released, or linked again for later. -/
structure Finished (now : Timestamp) (v : WalkPos) (x : Nat) (w w' : TimerWheel kMaxTimers) :
    Prop where
  wired : ∃ c, Wired v (fun _ => False) w' c
  firing : w'.firing = none
  walkNext : w'.walkNext = w.walkNext
  nextStale : w'.nextStale = true
  curMs : w'.curMs = w.curMs
  slots : ∀ k, k ≠ x → w'.pool.slots k = w.pool.slots k
  slot : (w'.pool.slots x = none ∧ w'.released = update w.released x (w.released x + 1)) ∨
    (w'.released = w.released ∧
      ∃ t, w'.pool.slots x = some t ∧ t.active = true ∧ now < t.expiry)

theorem Finished.released_other (h : Finished now v x w w') (hidx : idx ≠ x) :
    w'.released idx = w.released idx := by
  rcases h.slot with ⟨-, hr⟩ | ⟨hr, -⟩
  · rw [hr, update_of_ne hidx]
  · rw [hr]

/-- Only the timer that fired was loose. -/
theorem loose_empty : (fun y => some x = some y ∧ y ≠ x) = fun _ => False := by
  funext y
  refine propext ⟨fun hy => hy.2 (Option.some.inj hy.1).symm, False.elim⟩

/-- The end of a timer whose callback is over. -/
theorem Sound.finished_release (h : Sound v w) (hf : w.firing = some x) {t : Timer}
    (ht : w.pool.slots x = some t) {w₁ : TimerWheel kMaxTimers} {u : Timer}
    (hu : u = t ∨ u = { t with active := false })
    (hw₁ : w₁ = { w with firing := none, pool := w.pool.set x u }) :
    Finished now v x w { w₁.release x with nextStale := true } := by
  obtain ⟨c, hc⟩ := h.wired
  have hplaced := (hc.placed x t ht).period_pos
  have hset : Wired v (fun y => some x = some y) { w with pool := w.pool.set x u } c := by
    rw [← hf]
    rcases hu with rfl | rfl
    · exact hc.set ht rfl (fun _ => rfl) hplaced
    · exact hc.set ht rfl (fun _ => rfl) hplaced
  have hw : Wired v (fun y => some x = some y) w₁ c := by
    rw [hw₁]
    exact hset.congr rfl rfl rfl rfl rfl rfl rfl
  have hslots : ∀ k, w₁.pool.slots k = if k = x then some u else w.pool.slots k := by
    intro k
    rw [hw₁]
    exact slots_set ht k
  have hx := hslots x
  rw [if_pos rfl] at hx
  have hrel := hw.release hx rfl
  rw [loose_empty] at hrel
  refine ⟨⟨c, hrel.congr rfl rfl rfl rfl rfl rfl rfl⟩, ?_, ?_, rfl, ?_, ?_, .inl ⟨?_, ?_⟩⟩
  · rw [hw₁]
    rfl
  · rw [hw₁]
    rfl
  · rw [hw₁]
    rfl
  · intro k hk
    show (w₁.pool.free x).slots k = _
    rw [slots_free hx, if_neg hk, hslots, if_neg hk]
  · show (w₁.pool.free x).slots x = none
    rw [slots_free hx, if_pos rfl]
  · rw [hw₁]
    rfl

/-- The timer after its callback repeats. -/
theorem Sound.finished_relink (h : Sound v w) (hbase : v.base = msOf now) (hf : w.firing = some x)
    {t u : Timer} (ht : w.pool.slots x = some t) (hper : u.repeats = true → 0 < u.period)
    (hactive : u.active = true) (hlater : now < u.expiry) (hlist : u.list = t.list) :
    Finished now v x w { TimerWheel.link { w with firing := none, pool := w.pool.set x u } x u with
        nextStale := true } := by
  obtain ⟨c, hc⟩ := h.wired
  have hun : t.list = .unlinked := (h.list_eq_iff ht).mpr hf
  have hset : Wired v (fun y => some x = some y)
      { w with firing := none, pool := w.pool.set x u } c := by
    have hset := hc.set (t := u) ht hlist (absurd hun) hper
    rw [hf] at hset
    exact hset.congr rfl rfl rfl rfl rfl rfl rfl
  have hx : (w.pool.set x u).slots x = some u := by
    rw [slots_set ht, if_pos rfl]
  have hlink := hset.link (t := u) hx rfl hper (by rw [hbase]; exact msOf_mono hlater.le)
  rw [loose_empty] at hlink
  obtain ⟨hclock, hwalk, hp, -, -, -⟩ := link_spec
    { w with firing := none, pool := w.pool.set x u } x u
  have hslots : ∀ k, (TimerWheel.link { w with firing := none, pool := w.pool.set x u } x
      u).pool.slots k = if k = x then some { u with list := w.listFor u.expiry }
        else w.pool.slots k := by
    intro k
    rw [hp, slots_set hx]
    split_ifs with hk
    · rfl
    · rw [slots_set ht, if_neg hk]
  refine ⟨⟨_, hlink.congr rfl rfl rfl rfl rfl rfl rfl⟩, hclock.firing, hwalk, rfl, hclock.curMs, ?_,
    .inr ⟨hclock.released, ?_⟩⟩
  · intro k hk
    exact (hslots k).trans (if_neg hk)
  · exact ⟨_, (hslots x).trans (if_pos rfl), hactive, hlater⟩

theorem Sound.afterFire_finished (h : Sound v w) (hbase : v.base = msOf now)
    (hf : w.firing = some x) : Finished now v x w (w.afterFire x now) := by
  obtain ⟨t, ht⟩ := h.firing_live x hf
  obtain ⟨c, hc⟩ := h.wired
  have hplaced := (hc.placed x t ht).period_pos
  unfold afterFire
  simp only [ht]
  by_cases ha : t.active = false
  · rw [if_pos ha]
    exact h.finished_release hf ht (.inl rfl) (by rw [set_self ht])
  rw [if_neg ha]
  by_cases hr : t.repeats = true
  · rw [if_pos hr]
    apply h.finished_relink hbase hf ht
    · exact hplaced
    · simpa using ha
    · have hpos := hplaced hr
      split
      · exact lt_add_of_pos_right now hpos
      · exact not_le.mp ‹_›
    · rfl
  · rw [if_neg hr]
    exact h.finished_release hf ht (.inr rfl) rfl

/-- The walk after a timer fired. -/
theorem Walk.finished (h : Walk w₀ now v past w) (hf : w.firing = some x)
    (hfin : Finished now v x w w') : Walk w₀ now v past w' := by
  have hnone : ∀ y, w'.firing ≠ some y := fun y hy => absurd (hfin.firing ▸ hy) (by simp)
  have hloose : (fun y => w'.firing = some y) = fun _ => False := by
    funext y
    exact propext ⟨hnone y, False.elim⟩
  constructor
  · constructor
    · rw [hloose]
      exact hfin.wired
    · exact hfin.walkNext.trans h.sound.walkNext
    · exact fun y hy => absurd hy (hnone y)
    · intro y u hu hy
      by_cases hyx : y = x
      · subst hyx
        rcases hfin.slot with ⟨hdead, -⟩ | ⟨-, t, ht, ha, -⟩
        · simp [hdead] at hu
        · rw [← Option.some.inj (ht.symm.trans hu)]
          exact ha
      · rw [hfin.slots y hyx] at hu
        apply h.sound.active y u hu
        rw [hf]
        exact fun he => hyx (Option.some.inj he).symm
    · intro hst
      simp [hfin.nextStale] at hst
  · exact h.base
  · intro idx t₀ ht₀ hdue hlate
    rcases h.fates idx t₀ ht₀ hdue hlate with hp | he
    · left
      obtain ⟨u, s, hu, hexp, hdata, hl, hmet⟩ := hp.slot
      have hidx : idx ≠ x := by
        rintro rfl
        have hun := (h.sound.list_eq_iff hu).mpr hf
        simp [hl] at hun
      refine ⟨?_, ⟨u, s, ?_, hexp, hdata, hl, hmet⟩, hp.untouched⟩
      · rw [hfin.released_other hidx]
        exact hp.released
      · rw [hfin.slots idx hidx]
        exact hu
    · right
      refine ⟨he.settled, ?_⟩
      by_cases hidx : idx = x
      · subst hidx
        rcases hfin.slot with ⟨-, hr⟩ | ⟨hr, t, ht, -, hlater⟩
        · left
          rw [hr, update_self]
          rcases he.gone with hlt | ⟨heq, -⟩
          · omega
          · omega
        · rw [hr]
          exact he.gone.imp_right fun hg => ⟨hg.1, t, ht, .inr hlater⟩
      · rw [hfin.slots idx hidx]
        rw [hfin.released_other hidx]
        refine he.gone.imp_right fun ⟨hr, u, hu, hgone⟩ => ⟨hr, u, hu, .inr ?_⟩
        refine hgone.resolve_left fun hfi => ?_
        rw [hf] at hfi
        exact hidx (Option.some.inj hfi).symm
  · intro idx t₀ ht₀ hdue hlate
    have ha := h.asides idx t₀ ht₀ hdue hlate
    refine ⟨ha.unfired, ?_⟩
    by_cases hidx : idx = x
    · subst hidx
      left
      rcases ha.stays with hlt | ⟨-, u, hu, hl⟩
      · rcases hfin.slot with ⟨-, hr⟩ | ⟨hr, -⟩
        · rw [hr, update_self]
          exact Nat.lt_succ_of_lt hlt
        · rw [hr]
          exact hlt
      · have hun := (h.sound.list_eq_iff hu).mpr hf
        simp [hl] at hun
    · rw [hfin.slots idx hidx, hfin.released_other hidx]
      exact ha.stays
  · exact h.due
  · exact h.gens

/-- A callback that adds no timer that is due before it. -/
def NonNeg (f : TimerCallback kMaxTimers) : Prop :=
  ∀ past w id userData, ∀ call ∈ f past w id userData, call.NonNeg

variable {f : TimerCallback kMaxTimers}

section

variable (h : Walk w₀ now v past { w with walkNext := v.rest.head? })
include h

/-- `fire` of the timer the walk has met. -/
theorem Walk.fire (hnn : NonNeg f)
    (hrest : v.rest = x :: rest) (hfree : w.firing = none) (ht : w.pool.slots x = some t)
    (hdue : t.expiry ≤ now) :
    Continues w₀ now { v with rest := rest } w
      (past ++ (TimerWheel.fire f past { w with walkNext := w.links.next x } x t now).2)
      (TimerWheel.fire f past { w with walkNext := w.links.next x } x t now).1 := by
  obtain ⟨hslot, hx, hnext⟩ := h.met hrest ht
  have hlist : t.list ≠ .unlinked := by simp [hslot]
  obtain ⟨-, hrel, hgen, hcur, -, -⟩ := firingAt_spec ht hlist hnext hx
  have hstart := h.firingAt hrest hfree ht hdue
  obtain ⟨w₁, hw₁⟩ : ∃ w₁, w₁ = TimerWheel.firingAt { w with walkNext := w.links.next x } x t :=
    ⟨_, rfl⟩
  rw [← hw₁] at hrel hgen hcur hstart
  have hkey : w₁.keyOf x = w.keyOf x := by
    rw [keyOf, keyOf, hrel]
  have hid : w₁.idOf x = w.idOf x := by
    rw [idOf, idOf, hgen]
  have hfire : TimerWheel.fire f past { w with walkNext := w.links.next x } x t now =
      ((w₁.callAll now (f (past ++ [.fired (w.keyOf x) (w.idOf x) t.userData t.expiry]) w₁
          (w.idOf x) t.userData)).1.afterFire x now,
        .fired (w.keyOf x) (w.idOf x) t.userData t.expiry ::
          (w₁.callAll now (f (past ++ [.fired (w.keyOf x) (w.idOf x) t.userData t.expiry]) w₁
            (w.idOf x) t.userData)).2) := by
    rw [← hkey, ← hid, hw₁]
    rfl
  have hfiring : w₁.firing = some x := by
    rw [hw₁]
    rfl
  rw [hfire]
  obtain ⟨rest', hlen, hcalls, hf', hc'⟩ := hstart.callAll
    (hnn (past ++ [.fired (w.keyOf x) (w.idOf x) t.userData t.expiry]) w₁ (w.idOf x) t.userData)
  have hf₂ := hf'.trans hfiring
  have hfin := hcalls.sound.afterFire_finished hcalls.base hf₂
  refine ⟨rest', hlen, ?_, ?_, ?_⟩
  · have hdone := hcalls.finished hf₂ hfin
    rw [append_assoc] at hdone
    exact hdone
  · exact hfin.firing.trans hfree.symm
  · exact hfin.curMs.trans (hc'.trans hcur)

/-- The walk goes past a timer that is not due. -/
theorem Walk.skip
    (hrest : v.rest = x :: rest) (ht : w.pool.slots x = some t) (hlater : now < t.expiry) :
    Walk w₀ now { v with rest := rest } past { w with walkNext := w.links.next x } := by
  obtain ⟨-, -, hnext⟩ := h.met hrest ht
  obtain ⟨c, hc⟩ := h.sound.wired
  obtain ⟨P, hP⟩ := hc.split
  have hstay : ∀ y u, w.pool.slots y = some u → u.expiry ≤ now ∨ msOf u.expiry < v.base →
      ∀ s, y ∈ v.rest ∨ v.ahead s → y ∈ rest ∨ v.ahead s := by
    intro y u hu hd s hmet
    refine hmet.imp_left fun hm => ?_
    rw [hrest] at hm
    refine (mem_cons.mp hm).resolve_left ?_
    rintro rfl
    have hut : t = u := Option.some.inj (ht.symm.trans hu)
    rw [← hut] at hd
    rcases hd with hd | hd
    · exact absurd hlater (not_lt.mpr hd)
    · rw [h.base] at hd
      exact absurd (msOf_mono hlater.le) (not_le.mpr hd)
  refine ⟨⟨⟨c, hc.lists, ⟨P ++ [x], ?_⟩, hc.curMs_le, ?_, hc.gen⟩, hnext, h.sound.firing_live,
    h.sound.active, h.sound.next⟩, h.base, ?_, ?_, h.due, h.gens⟩
  · rw [hP, hrest, append_assoc]
    rfl
  · intro y u hu
    have hp := hc.placed y u hu
    exact ⟨hp.period_pos, hp.unlinked_iff, hp.later,
      fun s hl hlt => hstay y u hu (.inr hlt) s (hp.due s hl hlt), hp.overflow⟩
  · intro idx t₀ ht₀ hdue hlate
    rcases h.fates idx t₀ ht₀ hdue hlate with hp | he
    · obtain ⟨u, s, hu, hexp, hdata, hl, hmet⟩ := hp.slot
      exact .inl ⟨hp.released,
        ⟨u, s, hu, hexp, hdata, hl, hstay idx u hu (.inl (hexp ▸ hdue)) s hmet⟩, hp.untouched⟩
    · exact .inr ⟨he.settled, he.gone⟩
  · intro idx t₀ ht₀ hdue hlate
    have ha := h.asides idx t₀ ht₀ hdue hlate
    exact ⟨ha.unfired, ha.stays⟩

end

end Fire

/-! ## The loops -/

section Loops

variable {f : TimerCallback kMaxTimers}

/-- A walk is at the head of its loop once its next timer is the one left. -/
theorem Walk.atHead (h : Walk w₀ now v past w) :
    Walk w₀ now v past { w with walkNext := v.rest.head? } := by
  rw [← h.sound.walkNext]
  exact h

/-- The inner loop meets everything left in its slot. -/
theorem Walk.walkSlot (hnn : NonNeg f) {n : Nat} (h : Walk w₀ now v past
    { w with walkNext := v.rest.head? }) (hfree : w.firing = none) (hn : v.rest.length < n) :
    Walk w₀ now { v with rest := [] } (past ++ (walkSlot f now n past w v.rest.head?).2)
      { (walkSlot f now n past w v.rest.head?).1 with walkNext := none } ∧
      (walkSlot f now n past w v.rest.head?).1.firing = none ∧
      (walkSlot f now n past w v.rest.head?).1.curMs = w.curMs := by
  induction n generalizing v past w with
  | zero => exact absurd hn (Nat.not_lt_zero _)
  | succ n ih =>
    cases hrest : v.rest with
    | nil =>
      refine ⟨?_, hfree, rfl⟩
      have hv : { v with rest := [] } = v := by rw [← hrest]
      rw [hv]
      rw [hrest] at h
      simp only [head?_nil, walkSlot, append_nil]
      exact h
    | cons x rest =>
      obtain ⟨c, hc⟩ := h.sound.wired
      obtain ⟨P, hP⟩ := hc.split
      have hmem : x ∈ c (.slot v.slot) := by
        rw [hP, hrest]
        simp
      obtain ⟨-, t, ht, -⟩ := owner_eq_some.mp ((hc.lists.mem _ x).mp hmem)
      have ht' : w.pool.slots x = some t := ht
      have hlen : rest.length < n := by
        rw [hrest, length_cons] at hn
        omega
      rw [head?_cons]
      by_cases hdue : t.expiry ≤ now
      · obtain ⟨rest', hle, hw, hf, hcur⟩ := h.fire hnn hrest hfree ht' hdue
        have hstep : walkSlot f now (n + 1) past w (some x) =
            let r := TimerWheel.fire f past { w with walkNext := w.links.next x } x t now
            let q := walkSlot f now n (past ++ r.2) r.1 r.1.walkNext
            (q.1, r.2 ++ q.2) := by
          simp only [walkSlot, ht', if_pos hdue]
        rw [hstep]
        dsimp only
        generalize TimerWheel.fire f past { w with walkNext := w.links.next x } x t now = r at *
        have hsync : r.1.walkNext = rest'.head? := hw.sound.walkNext
        rw [hsync, ← append_assoc]
        obtain ⟨h₁, h₂, h₃⟩ := ih hw.atHead (hf.trans hfree) (lt_of_le_of_lt hle hlen)
        exact ⟨h₁, h₂, h₃.trans hcur⟩
      · have hskip := h.skip hrest ht' (not_le.mp hdue)
        have hstep : walkSlot f now (n + 1) past w (some x) =
            walkSlot f now n past { w with walkNext := w.links.next x } (w.links.next x) := by
          simp only [walkSlot, ht', if_neg hdue]
        obtain ⟨-, -, hnext⟩ := h.met hrest ht'
        rw [hstep, hnext]
        have hrec := ih (v := { v with rest := rest }) (w := { w with walkNext := rest.head? })
          (hnext ▸ hskip) hfree hlen
        exact hrec

/-- The walk enters the next slot: its timers are what is left of it. -/
theorem Walk.enter {b m last : Int} {sl : Nat}
    (h : Walk w₀ now ⟨b, sl, [], Ahead m last⟩ past { w with walkNext := none }) :
    ∃ rest, rest.length ≤ kMaxTimers ∧ w.slots (slotOf m) = rest.head? ∧
      Walk w₀ now ⟨b, slotOf m, rest, Ahead (m + 1) last⟩ past
        { w with walkNext := rest.head? } := by
  obtain ⟨c, hc⟩ := h.sound.wired
  have hmeet : ∀ y u s, w.pool.slots y = some u → u.list = .slot s →
      y ∈ ([] : List Nat) ∨ Ahead m last s →
      y ∈ c (.slot (slotOf m)) ∨ Ahead (m + 1) last s := by
    intro y u s hu hl hmet
    obtain ⟨k, hk, hk', hs⟩ := hmet.resolve_left not_mem_nil
    by_cases hkm : k = m
    · left
      rw [hkm] at hs
      rw [hc.lists.mem, owner_eq_some]
      exact ⟨by simp, u, hu, by rw [hl, hs]⟩
    · exact .inr ⟨k, by omega, hk', hs⟩
  refine ⟨c (.slot (slotOf m)), chain_length_le hc.lists _, hc.lists.head (.slot (slotOf m)), ?_⟩
  refine ⟨⟨⟨c, hc.lists, ⟨[], rfl⟩, hc.curMs_le, ?_, hc.gen⟩, rfl, h.sound.firing_live,
    h.sound.active, h.sound.next⟩, h.base, ?_, ?_, h.due, h.gens⟩
  · intro y u hu
    have hp := hc.placed y u hu
    exact ⟨hp.period_pos, hp.unlinked_iff, hp.later,
      fun s hl hlt => hmeet y u s hu hl (hp.due s hl hlt), hp.overflow⟩
  · intro idx t₀ ht₀ hdue hlate
    rcases h.fates idx t₀ ht₀ hdue hlate with hp | he
    · obtain ⟨u, s, hu, hexp, hdata, hl, hmet⟩ := hp.slot
      exact .inl ⟨hp.released, ⟨u, s, hu, hexp, hdata, hl, hmeet idx u s hu hl hmet⟩, hp.untouched⟩
    · exact .inr ⟨he.settled, he.gone⟩
  · intro idx t₀ ht₀ hdue hlate
    have ha := h.asides idx t₀ ht₀ hdue hlate
    exact ⟨ha.unfired, ha.stays⟩

/-- The outer loop meets everything from its slot to the last. -/
theorem Walk.walkSlots (hnn : NonNeg f) {n : Nat} {b m last : Int} {sl : Nat}
    (h : Walk w₀ now ⟨b, sl, [], Ahead m last⟩ past { w with walkNext := none })
    (hfree : w.firing = none) (hn : last < m + n) :
    ∃ sl', Walk w₀ now ⟨b, sl', [], fun _ => False⟩ (past ++ (walkSlots f now n m past w).2)
        { (walkSlots f now n m past w).1 with walkNext := none } ∧
      (walkSlots f now n m past w).1.firing = none ∧
      (walkSlots f now n m past w).1.curMs = w.curMs := by
  induction n generalizing m sl past w with
  | zero =>
    refine ⟨sl, ?_, hfree, rfl⟩
    have hempty : Ahead m last = fun _ => False := by
      funext s
      refine propext ⟨fun ⟨k, hk, hk', _⟩ => ?_, False.elim⟩
      omega
    rw [hempty] at h
    simp only [walkSlots, append_nil]
    exact h
  | succ n ih =>
    obtain ⟨rest, hlen, hhead, hw⟩ := h.enter
    obtain ⟨h₁, hf₁, hc₁⟩ := hw.walkSlot hnn hfree (Nat.lt_succ_of_le hlen)
    dsimp only at h₁ hf₁ hc₁
    rw [← hhead] at h₁ hf₁ hc₁
    simp only [walkSlots]
    generalize TimerWheel.walkSlot f now (kMaxTimers + 1) past w (w.slots (slotOf m)) = r at *
    obtain ⟨sl', h₂, hf₂, hc₂⟩ := ih h₁ hf₁ (by push_cast at hn ⊢; omega)
    refine ⟨sl', ?_, hf₂, hc₂.trans hc₁⟩
    rw [← append_assoc]
    exact h₂

end Loops

end TimerWheel

end FastMM
