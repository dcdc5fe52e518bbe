/-
  Timers/ExactFiring.lean --- a poll fires what is due, over whole runs.

  Source: `include/fastmm/core/timer_wheel.hpp` (`poll`, `poll_due`, `cancel`).

  `poll` promises to fire every timer with expiry at or before its time.  It does,
  except for one kind: a timer of the poll's own millisecond when the poll comes a
  turn of the wheel or more after the last.  `promote_overflow` measures the horizon
  from the cursor, which is `kSlots` behind at that point, and the timer is one
  millisecond beyond it.  It fires at the next poll.
-/
import FastMM.Timers.Polling
set_option autoImplicit false

namespace FastMM

open List

namespace TimerWheel

variable {kMaxTimers : Nat} {w : TimerWheel kMaxTimers} {now : Timestamp}
  {f : TimerCallback kMaxTimers}
variable {idx : Nat}

/-! ## A poll from a resting wheel -/

/-- The wheel rests again when nothing in its slots is before the base. -/
theorem Sound.close {v : WalkPos} (h : Sound v w) (hrest : v.rest = []) (hfree : w.firing = none)
    (hlater : ∀ x t s, w.pool.slots x = some t → t.list = .slot s → v.base ≤ msOf t.expiry) :
    Resting { w with curMs := v.base } := by
  obtain ⟨c, hc⟩ := h.wired
  refine ⟨hfree, ⟨c, hc.lists, ⟨c (.slot 0), (append_nil _).symm⟩, le_refl _, ?_, hc.gen⟩, ?_,
    h.firing_live, h.active, h.next⟩
  · intro x t ht
    have hp := hc.placed x t ht
    exact ⟨hp.period_pos, hp.unlinked_iff, hp.later,
      fun s hl hlt => absurd (hlater x t s ht hl) (not_le.mpr hlt), hp.overflow⟩
  · have hwalk := h.walkNext
    rw [hrest] at hwalk
    exact hwalk

/-- `poll` from a time not before the cursor: the cursor only moves on when nothing can
be due, else the slots are walked. -/
theorem Resting.poll_eq (h : Resting w) (hcur : w.curMs ≤ msOf now) : w.poll f now =
      if w.nextStale = false ∧ beforeSome now w.next = true then
        ({ w.prepared (msOf now) with curMs := msOf now }, [])
      else
        let r := walkSlots f now (msOf now - (w.prepared (msOf now)).curMs + 1).toNat
          (w.prepared (msOf now)).curMs [] (w.prepared (msOf now))
        ({ r.1 with walkNext := none, curMs := msOf now }, r.2) := by
  have hprep := h.prepared_spec hcur
  unfold poll
  rw [if_neg (not_lt.mpr hcur)]
  by_cases hnext : w.nextStale = false ∧ beforeSome now w.next = true
  · rw [if_pos hnext]
    by_cases hmin : beforeSome (msOf now + kSlots - 1) w.overflowMinMs = true
    · -- The short way out: there is nothing to promote either.
      rw [if_pos ⟨hnext.1, hnext.2, hmin⟩]
      have hjump : ∀ b : Prop, [Decidable b] → ∀ m : Int,
          ({ (if b then { w with curMs := m } else w) with curMs := msOf now } :
            TimerWheel kMaxTimers) = { w with curMs := msOf now } := by
        intro b _ m
        split <;> rfl
      have hsame : ∀ b : Prop, [Decidable b] → ∀ m : Int,
          (if b then { w with curMs := m } else w).overflowMinMs = w.overflowMinMs := by
        intro b _ m
        split <;> rfl
      unfold TimerWheel.prepared
      dsimp only
      rw [hsame, if_pos hmin, hjump]
    · rw [if_neg (fun hh => hmin hh.2.2)]
      unfold pollDue
      dsimp only
      rw [hprep.nextStale, hprep.next, if_pos hnext]
  · rw [if_neg hnext, if_neg (fun hh => hnext ⟨hh.1, hh.2.1⟩)]
    unfold pollDue
    dsimp only
    rw [hprep.nextStale, hprep.next, if_neg hnext]

/-- The walk of a poll before its first slot: what is due is pending, unless it is
late. -/
theorem Resting.walk_start (h : Resting w) (hcur : w.curMs ≤ msOf now) :
    Walk w now ((w.prepared (msOf now)).startOf (msOf now)) [] (w.prepared (msOf now)) := by
  have hprep := h.prepared_spec hcur
  have hsound := h.prepared_sound hcur hprep
  obtain ⟨c, hc⟩ := hsound.wired
  have hcur' := hprep.curMs
  have hslot : ∀ idx t₀, w.pool.slots idx = some t₀ →
      (w.prepared (msOf now)).pool.slots idx =
        some { t₀ with list := (w.prepared (msOf now)).relist t₀ } := by
    intro idx t₀ ht₀
    rw [hprep.slots, ht₀, Option.map_some]
  generalize w.prepared (msOf now) = w₁ at *
  refine ⟨hsound, rfl, ?_, ?_, ?_, ?_⟩
  · intro idx t₀ ht₀ hdue hlate
    left
    have hp := hc.placed idx _ (hslot idx t₀ ht₀)
    have hms : msOf t₀.expiry ≤ msOf now := msOf_mono hdue
    refine ⟨by rw [hprep.released], ?_, fun e he => absurd he not_mem_nil⟩
    cases hl : w₁.relist t₀ with
    | unlinked =>
      have hun := hp.unlinked_iff.mp hl
      simp [hprep.firing, h.1] at hun
    | overflow =>
      -- A due timer beyond the horizon is a late one.
      exfalso
      have hge := (hp.overflow hl).1
      have hfar : (kSlots : Int) ≤ msOf t₀.expiry - w₁.curMs := by
        unfold relist at hl
        split_ifs at hl with hov
        · exact listFor_eq_overflow.mp hl
        · exact absurd hl hov
      exact hlate ⟨by omega, by omega⟩
    | slot s =>
      refine ⟨_, s, hslot idx t₀ ht₀, rfl, rfl, hl, .inr ?_⟩
      by_cases hlt : msOf t₀.expiry < msOf now
      · exact (hp.due s hl hlt).resolve_left not_mem_nil
      have heq := (hp.later s hl (not_lt.mp hlt)).1
      refine ⟨msOf now, ?_, le_refl _, ?_⟩
      · omega
      rw [heq]
      dsimp only
      congr 1
      omega
  · intro idx t₀ ht₀ hdue hlate
    obtain ⟨hstall, hms⟩ := hlate
    obtain ⟨-, -, hin⟩ := h.curMs_le ht₀
    have hov : t₀.list = .overflow := by
      cases hl : t₀.list with
      | unlinked => exact absurd hl (h.curMs_le ht₀).1
      | overflow => rfl
      | slot s =>
        have hlt := (hin s hl).2
        omega
    refine ⟨fun e he => absurd he not_mem_nil, .inr ⟨by rw [hprep.released], ?_⟩⟩
    refine ⟨_, hslot idx t₀ ht₀, ?_⟩
    unfold relist
    rw [if_pos hov]
    apply listFor_eq_overflow.mpr
    omega
  · exact fun key i u e he => absurd he not_mem_nil
  · exact fun w' i he => absurd he not_mem_nil

/-- What a poll from a resting wheel does. -/
structure Polled (w : TimerWheel kMaxTimers) (now : Timestamp)
    (r : TimerWheel kMaxTimers × TimerTrace kMaxTimers) : Prop where
  resting : Resting r.1
  curMs : r.1.curMs = msOf now
  settled : ∀ idx t, w.pool.slots idx = some t → t.expiry ≤ now → ¬ w.Late now t →
    r.2.Settled (idx, w.released idx)
      (idAt kMaxTimers (w.released idx % kGenerations kMaxTimers) idx) t.userData t.expiry
  unfired : ∀ idx t, w.pool.slots idx = some t → t.expiry ≤ now → w.Late now t →
    ∀ e ∈ r.2, ¬ e.fires (idx, w.released idx)
  due : ∀ key id userData expiry, .fired key id userData expiry ∈ r.2 → expiry ≤ now
  gens : ∀ w' id, .cancel w' id ∈ r.2 → ∀ x, w'.gen x = w'.released x % kGenerations kMaxTimers

theorem Resting.poll (h : Resting w) (hcur : w.curMs ≤ msOf now) (hnn : NonNeg f) :
    Polled w now (w.poll f now) := by
  have hprep := h.prepared_spec hcur
  have hstart := h.walk_start hcur
  rw [h.poll_eq hcur]
  by_cases hnext : w.nextStale = false ∧ beforeSome now w.next = true
  · -- The cached expiry is later, so nothing is due.
    rw [if_pos hnext]
    have hlater : ∀ x t, w.pool.slots x = some t → now < t.expiry := by
      intro x t ht
      have hnf : w.firing ≠ some x := fun hf => absurd (h.1 ▸ hf) (by simp)
      obtain ⟨n, hn, hle⟩ := h.2.next hnext.1 x t ht (h.2.active x t ht hnf)
      exact lt_of_lt_of_le (beforeSome_iff.mp hnext.2 n hn) hle
    refine ⟨?_, rfl, ?_, ?_, ?_, ?_⟩
    · apply hstart.sound.close rfl (hprep.firing.trans h.1)
      intro x u s hu _
      rw [hprep.slots, Option.map_eq_some_iff] at hu
      obtain ⟨t, ht, rfl⟩ := hu
      exact msOf_mono (hlater x t ht).le
    · exact fun idx t ht hdue => absurd (hlater idx t ht) (not_lt.mpr hdue)
    · exact fun idx t ht hdue => absurd (hlater idx t ht) (not_lt.mpr hdue)
    · exact fun key i u e he => absurd he not_mem_nil
    · exact fun w' i he => absurd he not_mem_nil
  · rw [if_neg hnext]
    have hfree := hprep.firing.trans h.1
    have hhead : Walk w now ⟨msOf now, 0, [], Ahead (w.prepared (msOf now)).curMs (msOf now)⟩ []
        { w.prepared (msOf now) with walkNext := none } := by
      have hwalk := hprep.walkNext
      rw [← hwalk]
      exact hstart
    obtain ⟨sl, hend, hf, hc⟩ := hhead.walkSlots hnn
      (n := (msOf now - (w.prepared (msOf now)).curMs + 1).toNat) hfree (by omega)
    rw [nil_append] at hend
    generalize walkSlots f now (msOf now - (w.prepared (msOf now)).curMs + 1).toNat
      (w.prepared (msOf now)).curMs [] (w.prepared (msOf now)) = r at *
    refine ⟨?_, rfl, ?_, ?_, hend.due, hend.gens⟩
    · apply hend.sound.close rfl hf
      intro x t s ht hl
      obtain ⟨c, hwired⟩ := hend.sound.wired
      by_contra hlt
      rcases (hwired.placed x t ht).due s hl (not_le.mp hlt) with hr | hr
      · exact absurd hr not_mem_nil
      · exact hr
    · intro idx t ht hdue hlate
      rcases hend.fates idx t ht hdue hlate with hp | he
      · obtain ⟨u, s, -, -, -, -, hmet⟩ := hp.slot
        rcases hmet with hr | hr
        · exact absurd hr not_mem_nil
        · exact hr.elim
      · exact he.settled
    · exact fun idx t ht hdue hlate => (hend.asides idx t ht hdue hlate).unfired

/-! ## Runs -/

/-- The wheels a run reaches, with the last time it used.  Times do not decrease, and
neither `add` nor a callback's `add` has a negative period. -/
inductive Reachable : TimerWheel kMaxTimers → Timestamp → Prop
  | init (now : Timestamp) : Reachable (init kMaxTimers now) now
  | add {w T} (h : Reachable w T) {now : Timestamp} (hnow : T ≤ now) {period : Int}
      (hper : 0 ≤ period) (repeats : Bool) (userData : Nat) :
      Reachable (w.add now period repeats userData).1 now
  | cancel {w T} (h : Reachable w T) (id : Nat) : Reachable (w.cancel id).1 T
  | nextExpiry {w T} (h : Reachable w T) : Reachable w.nextExpiry.1 T
  | poll {w T} (h : Reachable w T) {now : Timestamp} (hnow : T ≤ now)
      {f : TimerCallback kMaxTimers} (hf : NonNeg f) : Reachable (w.poll f now).1 now

theorem resting_init (now : Timestamp) : Resting (init kMaxTimers now) := by
  refine ⟨rfl, ⟨fun _ => [], ⟨?_, ?_, ?_, ?_⟩, ⟨[], rfl⟩, le_refl _, ?_, ?_⟩, rfl, ?_, ?_, ?_⟩
  · exact fun i => trivial
  · exact fun i => nodup_nil
  · intro i
    cases i <;> rfl
  · intro i x
    simp [owner, init]
  · exact fun x t ht => absurd ht (by simp [init])
  · exact fun x => (Nat.zero_mod _).symm
  · exact fun x hx => absurd hx (by simp [init])
  · exact fun x t ht => absurd ht (by simp [init])
  · exact fun _ x t ht => absurd ht (by simp [init])

theorem Resting.cancel (h : Resting w) (id : Nat) :
    Resting (w.cancel id).1 ∧ (w.cancel id).1.curMs = w.curMs := by
  rcases w.cancel_cases id with hc | ⟨t, -, ht, -, hc⟩
  · rw [hc]
    exact ⟨h, rfl⟩
  rw [hc]
  have hsp := h.2.cancelled_spec ht
  have hsound := h.2.cancelled ht
  refine ⟨⟨hsp.firing.trans h.1, ?_⟩, hsp.curMs⟩
  rw [hsp.curMs]
  exact hsound

/-- Every wheel a run reaches rests, with its cursor not after the last time. -/
theorem Reachable.resting {T : Timestamp} (h : Reachable w T) : Resting w ∧ w.curMs ≤ msOf T := by
  induction h with
  | init now => exact ⟨resting_init now, le_refl _⟩
  | @add w T _ now hnow period hper repeats userData ih =>
    obtain ⟨hrest, hcur⟩ := ih
    have hcur' : w.curMs ≤ msOf now := le_trans hcur (msOf_mono hnow)
    have hsound : Sound (.done w.curMs) (w.add now period repeats userData).1 :=
      hrest.2.add hcur' hper
    rcases w.add_cases now period repeats userData with hsame | ⟨y, hadd⟩
    · rw [hsame]
      exact ⟨hrest, hcur'⟩
    refine ⟨⟨hadd.firing.trans hrest.1, ?_⟩, ?_⟩
    · rw [hadd.curMs]
      exact hsound
    · rw [hadd.curMs]
      exact hcur'
  | cancel _ id ih =>
    obtain ⟨hrest, hcur⟩ := ih
    obtain ⟨hrest', hcur'⟩ := hrest.cancel id
    exact ⟨hrest', hcur' ▸ hcur⟩
  | @nextExpiry w T _ ih =>
    obtain ⟨hrest, hcur⟩ := ih
    obtain ⟨-, -, -, f4, -, -, -, f8, -⟩ := w.nextExpiry_frame
    refine ⟨⟨f8.trans hrest.1, ?_⟩, f4 ▸ hcur⟩
    rw [f4]
    exact hrest.2.nextExpiry
  | poll _ hnow hf ih =>
    obtain ⟨hrest, hcur⟩ := ih
    have hpoll := hrest.poll (le_trans hcur (msOf_mono hnow)) hf
    exact ⟨hpoll.resting, hpoll.curMs.le⟩

/-! ## Stale ids -/

theorem lt_two_pow_kIndexBits (h : idx < kMaxTimers) : idx < 2 ^ kIndexBits kMaxTimers := by
  unfold kIndexBits
  split_ifs with hone
  · omega
  · exact lt_of_le_of_lt (Nat.le_sub_one_of_lt h) Nat.lt_log2_self

theorem indexOf_idAt (h : idx < kMaxTimers) (g : Nat) :
    indexOf kMaxTimers (idAt kMaxTimers g idx) = idx := by
  unfold indexOf idAt
  rw [Nat.mul_comm, Nat.mul_add_mod]
  exact Nat.mod_eq_of_lt (lt_two_pow_kIndexBits h)

theorem generation_idAt (h : idx < kMaxTimers) (g : Nat) :
    idAt kMaxTimers g idx / 2 ^ kIndexBits kMaxTimers = g := by
  have hlt := lt_two_pow_kIndexBits h
  unfold idAt
  rw [Nat.mul_comm, Nat.mul_add_div (by omega), Nat.div_eq_of_lt hlt, Nat.add_zero]

/-- The timer that pool slot `idx` held after `r` releases is still active. -/
def ActiveKey (w : TimerWheel kMaxTimers) (idx r : Nat) : Prop :=
  w.released idx = r ∧ ∃ t, w.pool.slots idx = some t ∧ t.active = true

/-- Cancelling a timer that is over is refused and changes nothing, as long as its pool
slot was not released so often since that the generation came round. -/
def StaleRefused (w : TimerWheel kMaxTimers) : Prop :=
  ∀ idx r, idx < kMaxTimers → r ≤ w.released idx →
    w.released idx < r + kGenerations kMaxTimers → ¬ w.ActiveKey idx r →
    w.cancel (idAt kMaxTimers (r % kGenerations kMaxTimers) idx) = (w, false)

theorem staleRefused_of_gen
    (hgen : ∀ x, w.gen x = w.released x % kGenerations kMaxTimers) : w.StaleRefused := by
  intro idx r hidx hle hlt hnot
  rcases w.cancel_cases (idAt kMaxTimers (r % kGenerations kMaxTimers) idx) with
    hc | ⟨t, hlive, ht, ha, -⟩
  · exact hc
  -- A live id of this generation is the id of the timer the slot holds.
  exfalso
  rw [indexOf_idAt hidx] at ht
  unfold live at hlive
  simp only [indexOf_idAt hidx, generation_idAt hidx, Bool.and_eq_true, decide_eq_true_eq] at hlive
  have hmod : r % kGenerations kMaxTimers = w.released idx % kGenerations kMaxTimers := by
    rw [hlive.2, hgen]
  have heq : w.released idx = r := by
    have hdvd := (Nat.modEq_iff_dvd' hle).mp hmod
    have hzero := Nat.eq_zero_of_dvd_of_lt hdvd (by omega)
    omega
  exact hnot ⟨heq, t, ht, ha⟩

/-! ## The result -/

/-- A poll that does what is promised of it: the poll's function is called once, with
the timer's id and data, for each timer that was active and due and that no earlier
callback cancelled; for no timer that is not due; and a callback's `cancel` of a timer
that is over is refused. -/
structure PollExact (w : TimerWheel kMaxTimers) (now : Timestamp)
    (f : TimerCallback kMaxTimers) : Prop where
  once : ∀ idx t, w.pool.slots idx = some t → t.active = true → t.expiry ≤ now →
    (w.poll f now).2.Settled (w.keyOf idx) (w.idOf idx) t.userData t.expiry
  due : ∀ key id userData expiry, .fired key id userData expiry ∈ (w.poll f now).2 → expiry ≤ now
  stale : ∀ w' id, .cancel w' id ∈ (w.poll f now).2 → w'.StaleRefused

/-- The poll comes less than a turn of the wheel after the last one, or nothing due is
in its own millisecond. -/
def OnTime (w : TimerWheel kMaxTimers) (now : Timestamp) : Prop :=
  msOf now - w.curMs < kSlots ∨
    ∀ idx t, w.pool.slots idx = some t → t.active = true → t.expiry ≤ now →
      msOf t.expiry ≠ msOf now

theorem OnTime.not_late {t : Timer} (h : OnTime w now)
    (ht : w.pool.slots idx = some t) (ha : t.active = true) (hdue : t.expiry ≤ now) :
    ¬ w.Late now t := by
  rintro ⟨hstall, hms⟩
  rcases h with hlt | hnone
  · omega
  · exact hnone idx t ht ha hdue hms

/-- A callback that makes no call. -/
def silent : TimerCallback kMaxTimers := fun _ _ _ _ => []

theorem not_cancels_walkSlot_silent (n : Nat) (past : TimerTrace kMaxTimers)
    (w : TimerWheel kMaxTimers) (i : Option Nat) (key : Nat × Nat) :
    ∀ e ∈ (walkSlot silent now n past w i).2, ¬ e.cancels key := by
  induction n generalizing past w i with
  | zero => exact fun e he => absurd he not_mem_nil
  | succ n ih =>
    cases i with
    | none => exact fun e he => absurd he not_mem_nil
    | some idx =>
      intro e he
      simp only [walkSlot] at he
      cases ht : w.pool.slots idx with
      | none =>
        rw [ht] at he
        exact absurd he not_mem_nil
      | some t =>
        rw [ht] at he
        dsimp only at he
        split_ifs at he with hdue
        · rcases mem_append.mp he with he | he
          · -- The firing itself: its callback makes no call.
            have hone : e = TimerEvent.fired _ _ _ _ := mem_singleton.mp he
            rw [hone]
            exact fun hf => hf
          · exact ih _ _ _ e he
        · exact ih _ _ _ e he

theorem not_cancels_walkSlots_silent (n : Nat) (m : Int) (past : TimerTrace kMaxTimers)
    (w : TimerWheel kMaxTimers) (key : Nat × Nat) :
    ∀ e ∈ (walkSlots silent now n m past w).2, ¬ e.cancels key := by
  induction n generalizing m past w with
  | zero => exact fun e he => absurd he not_mem_nil
  | succ n ih =>
    intro e he
    simp only [walkSlots] at he
    rcases mem_append.mp he with he | he
    · exact not_cancels_walkSlot_silent _ _ _ _ key e he
    · exact ih _ _ _ e he

/-- A late timer is not fired. -/
theorem Resting.not_exact_of_late {t : Timer} (h : Resting w)
    (hcur : w.curMs ≤ msOf now) (ht : w.pool.slots idx = some t) (hdue : t.expiry ≤ now)
    (hlate : w.Late now t) : ¬ PollExact w now silent := by
  intro hexact
  have hnn : NonNeg (silent : TimerCallback kMaxTimers) :=
    fun _ _ _ _ call hcall => absurd hcall not_mem_nil
  have hnf : w.firing ≠ some idx := fun hf => absurd (h.1 ▸ hf) (by simp)
  have hunfired := (h.poll hcur hnn).unfired idx t ht hdue hlate
  rcases hexact.once idx t ht (h.2.active idx t ht hnf) hdue with
    ⟨before, after, heq, -, -⟩ | ⟨⟨e, he, hcan⟩, -⟩
  · refine hunfired (.fired (w.keyOf idx) (w.idOf idx) t.userData t.expiry) ?_ rfl
    rw [heq]
    simp
  · rw [h.poll_eq hcur] at he
    split_ifs at he with hnext
    · exact absurd he not_mem_nil
    · exact not_cancels_walkSlots_silent _ _ _ _ _ e he hcan

/-- In every state a run reaches, a poll fires exactly what is due, whatever its
callbacks add and cancel, and cancelling a timer that is over is refused, if and only if
the poll is on time. -/
theorem poll_exact_iff {T : Timestamp} (h : Reachable w T) (hT : T ≤ now) :
    (w.StaleRefused ∧ ∀ f, NonNeg f → PollExact w now f) ↔ OnTime w now := by
  obtain ⟨hrest, hcurT⟩ := h.resting
  have hcur : w.curMs ≤ msOf now := le_trans hcurT (msOf_mono hT)
  obtain ⟨c, hc⟩ := hrest.2.wired
  constructor
  · rintro ⟨-, hall⟩
    by_contra hlate
    unfold OnTime at hlate
    push Not at hlate
    obtain ⟨hstall, idx, t, ht, ha, hdue, hms⟩ := hlate
    refine hrest.not_exact_of_late hcur ht hdue ⟨hstall, hms⟩ (hall silent ?_)
    exact fun _ _ _ _ call hcall => absurd hcall not_mem_nil
  · intro htime
    refine ⟨staleRefused_of_gen hc.gen, fun f hf => ?_⟩
    have hpoll := hrest.poll hcur hf
    constructor
    · intro idx t ht ha hdue
      rw [keyOf, idOf, hc.gen idx]
      exact hpoll.settled idx t ht hdue (htime.not_late ht ha hdue)
    · exact hpoll.due
    · exact fun w' id hmem => staleRefused_of_gen (hpoll.gens w' id hmem)

/-- A wheel made at time zero with one timer, 4096 ms ahead. -/
def oneTurn : TimerWheel 1024 := ((init 1024 0).add 0 4096000000 false 7).1

theorem reachable_oneTurn : Reachable oneTurn 0 :=
  (Reachable.init 0).add (le_refl 0) (by decide) false 7

theorem oneTurn_slot : ∃ t, oneTurn.pool.slots 0 = some t ∧ t.expiry = 4096000000 ∧
    t.active = true := ⟨_, rfl, rfl, rfl⟩

theorem poll_exact_iff_before_turn :
    oneTurn.StaleRefused ∧ ∀ f, NonNeg f → PollExact oneTurn 4095999999 f := by
  apply (poll_exact_iff reachable_oneTurn (by decide)).mpr
  left
  decide

/-- A timer a turn of the wheel ahead is not fired by a poll at its expiry. -/
theorem poll_skips_due_timer : ∃ t, oneTurn.pool.slots 0 = some t ∧ t.active = true ∧
    t.expiry ≤ 4096000000 ∧ Reachable oneTurn 0 ∧
    NonNeg (silent : TimerCallback 1024) ∧ ¬ PollExact oneTurn 4096000000 silent := by
  obtain ⟨t, ht, he, ha⟩ := oneTurn_slot
  refine ⟨t, ht, ha, he.le, reachable_oneTurn, ?_, ?_⟩
  · exact fun _ _ _ _ call hcall => absurd hcall not_mem_nil
  refine reachable_oneTurn.resting.1.not_exact_of_late ?_ ht he.le ⟨?_, ?_⟩
  · decide
  · decide
  · rw [he]

end TimerWheel

end FastMM
