/-
  Ouch/UserRefMap.lean --- UserRefNums handed out for client order ids.

  Source: `UserRefMap` of `include/fastmm/codecs/ouch/ouch50.hpp` and `src/codecs/ouch/ouch50.cpp`.

  The counter is zero once its last number is out, and `assign` then refuses.  `set_next` moves a
  counter forwards, and a counter that is out counts as one behind every number: what it is moved
  to then may be a number already handed out.
-/
import FastMM.Core.CounterKeyMap
import FastMM.Core.Types
set_option autoImplicit false

namespace FastMM.Ouch.Ouch50

open List

def kSlots : Nat := 2 ^ 17

/-- The load of an overflow table of 4096 slots. -/
def kOverflow : Nat := 4096 - 4096 / 8

structure UserRefMap where
  byId : CounterKeyMap UInt32 kSlots kOverflow := {}
  byUrn : CounterKeyMap ClientOrderId kSlots kOverflow := {}
  next : UInt32

namespace UserRefMap

variable {urn : UInt32}

def create (first : UInt32) : UserRefMap := { next := if first = 0 then 1 else first }

variable (m : UserRefMap)

/-- `assign`: the id's UserRefNum, zero when it gets none. -/
def assign (id : ClientOrderId) : UInt32 × UserRefMap :=
  match m.byId.find id.value with
  | some urn => (urn, m)
  | none =>
    if m.next = 0 ∨ id.value = 0 then (0, m)
    else
      match m.byId.insert id.value m.next with
      | none => (0, m)
      | some byId =>
        match m.byUrn.insert m.next.toNat id with
        | none => (0, { m with byId := byId.erase id.value })
        -- The counter wraps to zero behind its last number.
        | some byUrn => (m.next, { byId := byId, byUrn := byUrn, next := m.next + 1 })

/-- `find` of an id. -/
def findId (id : ClientOrderId) : UInt32 := (m.byId.find id.value).getD 0

/-- `find` of a UserRefNum. -/
def findUrn (urn : UInt32) : ClientOrderId := (m.byUrn.find urn.toNat).getD .invalid

def erase (urn : UInt32) : UserRefMap :=
  match m.byUrn.find urn.toNat with
  | none => m
  | some id => { m with byId := m.byId.erase id.value, byUrn := m.byUrn.erase urn.toNat }

def setNext (n : UInt32) : UserRefMap := if m.next < n then { m with next := n } else m

/-! ## What an assignment does -/

variable {m} {id : ClientOrderId}

theorem assign_known (hfind : m.byId.find id.value = some urn) : m.assign id = (urn, m) := by
  unfold assign
  rw [hfind]

/-- An id without a number: it gets none and nothing changes, or it gets the counter's. -/
theorem assign_cases (hnew : m.byId.find id.value = none) : m.assign id = (0, m) ∨
      (m.next ≠ 0 ∧ ∃ byId byUrn, m.byId.insert id.value m.next = some byId ∧
        m.byUrn.insert m.next.toNat id = some byUrn ∧
        m.assign id = (m.next, { byId := byId, byUrn := byUrn, next := m.next + 1 })) := by
  unfold assign
  rw [hnew]
  split_ifs with hout
  · exact .inl rfl
  cases hid : m.byId.insert id.value m.next with
  | none => exact .inl rfl
  | some byId =>
    cases hurn : m.byUrn.insert m.next.toNat id with
    | none =>
      dsimp only
      rw [CounterKeyMap.erase_insert hnew hid]
      exact .inl rfl
    | some byUrn =>
      exact .inr ⟨fun he => hout (.inl he), byId, byUrn, rfl, rfl, rfl⟩

/-- An assignment that fails changes nothing. -/
theorem assign_failed (h : (m.assign id).1 = 0) : (m.assign id).2 = m := by
  cases hfind : m.byId.find id.value with
  | some urn => rw [assign_known hfind]
  | none =>
    rcases assign_cases hfind with hsame | ⟨hne, byId, byUrn, -, -, heq⟩
    · rw [hsame]
    · rw [heq] at h
      exact absurd h hne

theorem erase_unknown (hfind : m.byUrn.find urn.toNat = none) : m.erase urn = m := by
  unfold erase
  rw [hfind]

theorem erase_known (hfind : m.byUrn.find urn.toNat = some id) : m.erase urn =
      { m with byId := m.byId.erase id.value, byUrn := m.byUrn.erase urn.toNat } := by
  unfold erase
  rw [hfind]

end UserRefMap

/-! ## Runs -/

inductive UserRefOp where
  | assign (id : ClientOrderId)
  | erase (urn : UInt32)
  | setNext (n : UInt32)
  deriving DecidableEq, Repr

/-- The map, every number `assign` has returned, and the pairs assigned and not erased. -/
structure UserRefRun where
  map : UserRefMap
  returned : List UInt32 := []
  pairs : List (ClientOrderId × UInt32) := []

namespace UserRefRun

def step (s : UserRefRun) : UserRefOp → UserRefRun
  | .assign id =>
    let (urn, map) := s.map.assign id
    { map := map
      returned := s.returned ++ [urn]
      pairs :=
        if s.map.byId.find id.value = none ∧ urn ≠ 0 then s.pairs ++ [(id, urn)] else s.pairs }
  | .erase urn =>
    { s with
      map := s.map.erase urn
      pairs := s.pairs.filter fun p => p.2 ≠ urn }
  | .setNext n => { s with map := s.map.setNext n }

def create (first : UInt32) : UserRefRun := { map := .create first }

def run (first : UInt32) (ops : List UserRefOp) : UserRefRun := ops.foldl step (create first)

/-- The counter is not out when it is moved. -/
def Spared (first : UInt32) (ops : List UserRefOp) : Prop :=
  ∀ before n, before ++ [.setNext n] <+: ops → n ≠ 0 → (run first before).map.next ≠ 0

/-- The two maps are the pairs, each way, and every number is behind the counter unless it is
out. -/
structure Ok (s : UserRefRun) : Prop where
  apartId : s.map.byId.Apart
  apartUrn : s.map.byUrn.Apart
  byId : ∀ id urn, s.map.byId.find id.value = some urn ↔ (id, urn) ∈ s.pairs
  byUrn : ∀ urn id, s.map.byUrn.find urn.toNat = some id ↔ (id, urn) ∈ s.pairs
  pairs : ∀ p ∈ s.pairs, p.2 ∈ s.returned
  behind : s.map.next ≠ 0 → ∀ r ∈ s.returned, r < s.map.next

variable {s : UserRefRun} {first : UInt32}

theorem step_assign (id : ClientOrderId) : s.step (.assign id) =
    { map := (s.map.assign id).2
      returned := s.returned ++ [(s.map.assign id).1]
      pairs :=
        if s.map.byId.find id.value = none ∧ (s.map.assign id).1 ≠ 0 then
          s.pairs ++ [(id, (s.map.assign id).1)]
        else s.pairs } := rfl

theorem step_erase (urn : UInt32) : s.step (.erase urn) =
    { s with
      map := s.map.erase urn
      pairs := s.pairs.filter fun p => p.2 ≠ urn } := rfl

theorem step_setNext (n : UInt32) : s.step (.setNext n) = { s with map := s.map.setNext n } := rfl

theorem ok_create (first : UInt32) : (create first).Ok := by
  refine ⟨CounterKeyMap.apart_empty, CounterKeyMap.apart_empty, fun id urn => ?_,
    fun urn id => ?_, fun p hp => absurd hp not_mem_nil, fun _ r hr => absurd hr not_mem_nil⟩
  · exact iff_of_false (fun h => absurd h (by simp [create, UserRefMap.create, CounterKeyMap.find]))
      not_mem_nil
  · exact iff_of_false (fun h => absurd h (by simp [create, UserRefMap.create, CounterKeyMap.find]))
      not_mem_nil

theorem value_injective {id id' : ClientOrderId} (h : id.value = id'.value) : id = id' := by
  cases id
  cases id'
  exact congrArg _ h

section

variable (h : s.Ok)
include h

/-- A number that is out is nobody else's: the pairs have one id a number. -/
theorem Ok.id_unique {id id' : ClientOrderId} {urn : UInt32} (hp : (id, urn) ∈ s.pairs)
    (hp' : (id', urn) ∈ s.pairs) : id = id' := by
  have hfind := (h.byUrn urn id).mpr hp
  rw [(h.byUrn urn id').mpr hp'] at hfind
  exact (Option.some.inj hfind).symm

/-- An id that is in the map gets the number it has. -/
theorem Ok.known {id : ClientOrderId} {urn : UInt32}
    (hfind : s.map.byId.find id.value = some urn) :
    s.step (.assign id) = { s with returned := s.returned ++ [urn] } ∧ urn ∈ s.returned := by
  refine ⟨?_, h.pairs _ ((h.byId id urn).mp hfind)⟩
  rw [step_assign, UserRefMap.assign_known hfind, hfind]
  rw [if_neg fun hc => absurd hc.1 (by simp)]

/-- A number returned before is returned again, or zero is. -/
theorem Ok.again {r : UInt32} (hr : r ∈ s.returned ∨ r = 0) :
    Ok { s with returned := s.returned ++ [r] } := by
  refine ⟨h.apartId, h.apartUrn, h.byId, h.byUrn, fun p hp => mem_append_left _ (h.pairs p hp),
    fun hne x hx => ?_⟩
  rcases mem_append.mp hx with hx | hx
  · exact h.behind hne x hx
  rw [mem_singleton.mp hx]
  rcases hr with hr | rfl
  · exact h.behind hne r hr
  · exact UInt32.pos_iff_ne_zero.mpr hne

/-- The counter's number is new: it is in no pair. -/
theorem Ok.fresh (hne : s.map.next ≠ 0) (id : ClientOrderId) :
    (id, s.map.next) ∉ s.pairs := fun hp =>
  UInt32.lt_irrefl _ (h.behind hne _ (h.pairs _ hp))

/-- An id that is not in the map gets the counter's number. -/
theorem Ok.assigned {id : ClientOrderId} (hnew : s.map.byId.find id.value = none)
    (hne : s.map.next ≠ 0) {byId : CounterKeyMap UInt32 kSlots kOverflow}
    {byUrn : CounterKeyMap ClientOrderId kSlots kOverflow}
    (hid : s.map.byId.insert id.value s.map.next = some byId)
    (hurn : s.map.byUrn.insert s.map.next.toNat id = some byUrn) :
    Ok { map := { byId := byId, byUrn := byUrn, next := s.map.next + 1 }
         returned := s.returned ++ [s.map.next]
         pairs := s.pairs ++ [(id, s.map.next)] } := by
  have hnewUrn : s.map.byUrn.find s.map.next.toNat = none := by
    cases hfind : s.map.byUrn.find s.map.next.toNat with
    | none => rfl
    | some id' => exact absurd ((h.byUrn _ id').mp hfind) (h.fresh hne id')
  obtain ⟨hapartId, hfindId⟩ := h.apartId.insert hnew hid
  obtain ⟨hapartUrn, hfindUrn⟩ := h.apartUrn.insert hnewUrn hurn
  refine ⟨hapartId, hapartUrn, fun id' urn => ?_, fun urn id' => ?_, fun p hp => ?_,
    fun hstep r hr => ?_⟩
  · rw [hfindId, mem_append, mem_singleton, ← h.byId id' urn]
    by_cases he : id'.value = id.value
    · obtain rfl := value_injective he
      rw [if_pos rfl, hnew]
      simp [eq_comm]
    · rw [if_neg he]
      exact (or_iff_left fun hp => he (congrArg ClientOrderId.value (Prod.mk.inj hp).1)).symm
  · rw [hfindUrn, mem_append, mem_singleton, ← h.byUrn urn id']
    by_cases he : urn.toNat = s.map.next.toNat
    · obtain rfl := UInt32.toNat_inj.mp he
      rw [if_pos rfl, hnewUrn]
      simp [eq_comm]
    · rw [if_neg he]
      exact (or_iff_left fun hp => he (congrArg UInt32.toNat (Prod.mk.inj hp).2)).symm
  · rcases mem_append.mp hp with hp | hp
    · exact mem_append_left _ (h.pairs p hp)
    · rw [mem_singleton.mp hp]
      exact mem_append_right _ (mem_singleton_self _)
  have hup : s.map.next < s.map.next + 1 := by
    have hlt := s.map.next.toNat_lt
    rw [UInt32.lt_iff_toNat_lt, UInt32.toNat_add]
    by_cases hlast : s.map.next.toNat = 2 ^ 32 - 1
    · refine absurd (UInt32.toNat_inj.mp ?_) hstep
      rw [UInt32.toNat_add, hlast]
      rfl
    · show _ < (s.map.next.toNat + 1) % 2 ^ 32
      rw [Nat.mod_eq_of_lt (by omega)]
      exact Nat.lt_succ_self _
  rcases mem_append.mp hr with hr | hr
  · exact UInt32.lt_trans (h.behind hne r hr) hup
  · rw [mem_singleton.mp hr]
    exact hup

theorem Ok.assign (id : ClientOrderId) : (s.step (.assign id)).Ok := by
  cases hfind : s.map.byId.find id.value with
  | some urn =>
    obtain ⟨hstep, hr⟩ := h.known hfind
    rw [hstep]
    exact h.again (.inl hr)
  | none =>
    rw [step_assign]
    rcases UserRefMap.assign_cases hfind with hsame | ⟨hne, byId, byUrn, hid, hurn, heq⟩
    · rw [hsame]
      rw [if_neg fun hc => hc.2 rfl]
      exact h.again (.inr rfl)
    · rw [heq]
      rw [if_pos ⟨hfind, hne⟩]
      exact h.assigned hfind hne hid hurn

theorem Ok.erase (urn : UInt32) : (s.step (.erase urn)).Ok := by
  have hpairs : ∀ (x : ClientOrderId) (n : UInt32),
      (x, n) ∈ s.pairs.filter (fun p => p.2 ≠ urn) ↔ (x, n) ∈ s.pairs ∧ n ≠ urn := fun x n => by
    rw [mem_filter, decide_eq_true_iff]
  rw [step_erase]
  cases hfind : s.map.byUrn.find urn.toNat with
  | none =>
    have hnone : s.pairs.filter (fun p => p.2 ≠ urn) = s.pairs := by
      refine filter_eq_self.mpr fun p hp => decide_eq_true fun he => ?_
      have hin := (h.byUrn p.2 p.1).mpr hp
      simp [he, hfind] at hin
    rw [UserRefMap.erase_unknown hfind, hnone]
    exact h
  | some id =>
    rw [UserRefMap.erase_known hfind]
    have hpair : (id, urn) ∈ s.pairs := (h.byUrn urn id).mp hfind
    obtain ⟨hapartId, hfindId⟩ := h.apartId.erase id.value
    obtain ⟨hapartUrn, hfindUrn⟩ := h.apartUrn.erase urn.toNat
    refine ⟨hapartId, hapartUrn, fun id' n => ?_, fun n id' => ?_, fun p hp => ?_, h.behind⟩
    · rw [hfindId]
      refine Iff.trans ?_ (hpairs id' n).symm
      by_cases he : id'.value = id.value
      · obtain rfl := value_injective he
        rw [if_pos rfl]
        refine iff_of_false (by simp) fun hc => hc.2 ?_
        have hone := (h.byId id' n).mpr hc.1
        rw [(h.byId id' urn).mpr hpair] at hone
        exact (Option.some.inj hone).symm
      · rw [if_neg he, h.byId]
        refine (and_iff_left_of_imp fun hp hn => he ?_).symm
        rw [hn] at hp
        rw [h.id_unique hp hpair]
    · rw [hfindUrn]
      refine Iff.trans ?_ (hpairs id' n).symm
      split_ifs with he
      · exact iff_of_false (by simp) fun hc => hc.2 (UInt32.toNat_inj.mp he)
      · rw [h.byUrn]
        exact (and_iff_left fun hn => he (congrArg _ hn)).symm
    · exact h.pairs p (mem_of_mem_filter hp)

/-- A counter that is not out moves forwards. -/
theorem Ok.setNext {n : UInt32} (hn : n ≠ 0 → s.map.next ≠ 0) :
    (s.step (.setNext n)).Ok := by
  rw [step_setNext]
  unfold UserRefMap.setNext
  split_ifs with hlt
  · have hpos : n ≠ 0 := UInt32.pos_iff_ne_zero.mp (UInt32.lt_of_le_of_lt (UInt32.zero_le) hlt)
    exact ⟨h.apartId, h.apartUrn, h.byId, h.byUrn, h.pairs,
      fun _ r hr => UInt32.lt_trans (h.behind (hn hpos) r hr) hlt⟩
  · exact h

end

theorem ok_run {ops : List UserRefOp} (hops : Spared first ops) : (run first ops).Ok := by
  induction ops using List.reverseRecOn with
  | nil => exact ok_create first
  | append_singleton ops op ih =>
    have hbefore : (run first ops).Ok :=
      ih fun before n hp => hops before n (hp.trans (prefix_append _ _))
    have hstep : run first (ops ++ [op]) = (run first ops).step op := by
      unfold run
      rw [foldl_append]
      rfl
    rw [hstep]
    cases op with
    | assign id => exact hbefore.assign id
    | erase urn => exact hbefore.erase urn
    | setNext n => exact hbefore.setNext (hops ops n prefix_rfl)

/-- As long as the counter is not moved once it is out: a new id's number is greater than every
number before, the maps are inverse to each other on the pairs assigned and not erased, and an
assignment that fails changes nothing. -/
theorem user_refs_increase (first : UInt32) (ops : List UserRefOp) (hops : Spared first ops) :
    (∀ id, (run first ops).map.byId.find id.value = none → ((run first ops).map.assign id).1 ≠ 0 →
        ∀ r ∈ (run first ops).returned, r < ((run first ops).map.assign id).1) ∧
      (∀ id urn, ((run first ops).map.byId.find id.value = some urn ↔
          (id, urn) ∈ (run first ops).pairs) ∧
        ((run first ops).map.byUrn.find urn.toNat = some id ↔ (id, urn) ∈ (run first ops).pairs)) ∧
      ∀ id, ((run first ops).map.assign id).1 = 0 →
        ((run first ops).map.assign id).2 = (run first ops).map := by
  have h := ok_run hops
  refine ⟨fun id hnew hgot => ?_, fun id urn => ⟨h.byId id urn, h.byUrn urn id⟩,
    fun id => UserRefMap.assign_failed⟩
  rcases UserRefMap.assign_cases hnew with hsame | ⟨hne, byId, byUrn, -, -, heq⟩
  · rw [hsame] at hgot
    exact absurd rfl hgot
  · rw [heq]
    exact h.behind hne

theorem user_refs_increase_two : ((run 7 [.assign ⟨1⟩, .setNext 100]).map.assign ⟨2⟩).1 = 100 ∧
      ∀ r ∈ (run 7 [.assign ⟨1⟩, .setNext 100]).returned,
        r < ((run 7 [.assign ⟨1⟩, .setNext 100]).map.assign ⟨2⟩).1 := by
  have hspared : Spared 7 [.assign ⟨1⟩, .setNext 100] := by
    intro before n hp _
    have hlen := hp.length_le
    rw [length_append, length_singleton] at hlen
    match before, hp with
    | [], hp => nomatch hp
    | [op], hp =>
      obtain rfl : op = .assign ⟨1⟩ := (cons_prefix_cons.mp hp).1
      decide
    | _ :: _ :: _, _ => nomatch hlen
  exact ⟨by decide, (user_refs_increase 7 _ hspared).1 ⟨2⟩ (by decide) (by decide)⟩

/-- The last number is out, an Account Query Response names 5, and a second order gets 5. -/
theorem not_user_refs_increase : ¬ ∀ (first : UInt32) (ops : List UserRefOp) (id : ClientOrderId),
        (run first ops).map.byId.find id.value = none → ((run first ops).map.assign id).1 ≠ 0 →
          ∀ r ∈ (run first ops).returned, r < ((run first ops).map.assign id).1 := by
  intro h
  have hcase := h 4294967295 [.assign ⟨1⟩, .setNext 5] ⟨2⟩ (by decide) (by decide) 4294967295
    (by decide)
  exact absurd hcase (by decide)

end UserRefRun

end FastMM.Ouch.Ouch50
