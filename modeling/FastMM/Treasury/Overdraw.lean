/-
  Treasury/Overdraw.lean --- no planned transfer overdraws its payer or overfills its payee.

  Source: `src/core/treasury.cpp` (`plan_transfers`).

  The targets and the floors are what the plan reads out of `Shares`; nothing is assumed of them.
-/
import FastMM.Treasury.Planner
import Mathlib.Data.List.GetD
set_option autoImplicit false

namespace FastMM.Treasury

open List TreasuryConfig

/-! ## What the plan reads of an account -/

/-- The account of a venue; of several, the one listed last. -/
def accountOf (accounts : List TreasuryAccount) (v : VenueId) : Option TreasuryAccount :=
  accounts.reverse.find? fun a => a.venue = v

def rowOf (a : TreasuryAccount) : Row :=
  { free := a.free, out := a.transferable, locked := a.locked, want := max a.need 0, seen := true }

/-- The columns of the plan, one for each member. -/
def rowsOf (cfg : TreasuryConfig) (accounts : List TreasuryAccount) : List Row :=
  cfg.members.map fun v => ((accountOf accounts v).map rowOf).getD {}

/-- What an account counts as having. -/
def haveOf (cfg : TreasuryConfig) (row : Row) : Int :=
  match cfg.targets with
  | .demand => row.free + max row.locked 0
  | .weights => row.free

def targetOf (cfg : TreasuryConfig) (rows : List Row) (i : Nat) : Int :=
  match cfg.targets with
  | .demand =>
    let kept := (rows.zipIdx.map fun r => cfg.minFree.getD r.2 0).sum
    cfg.shares.demand (rows.map Row.want) ((rows.map (haveOf cfg)).sum - kept) i +
      cfg.minFree.getD i 0
  | .weights => cfg.shares.weight (rows.map Row.free).sum i

/-- What an account is filled up to, and what it keeps. -/
def keepOf (cfg : TreasuryConfig) (rows : List Row) (i : Nat) : Int :=
  match cfg.targets with
  | .demand => targetOf cfg rows i
  | .weights => max (targetOf cfg rows i) (cfg.minFree.getD i 0)

def floorOf (cfg : TreasuryConfig) (rows : List Row) (i : Nat) : Int :=
  match cfg.targets with
  | .demand => cfg.shares.keep (targetOf cfg rows i)
  | .weights => max (cfg.shares.keep (targetOf cfg rows i)) (cfg.minFree.getD i 0)

/-- What an account holds above what it keeps and may give. -/
def spareOf (cfg : TreasuryConfig) (rows : List Row) (i : Nat) (row : Row) : Int :=
  match cfg.targets with
  | .demand => min (haveOf cfg row - keepOf cfg rows i) row.free
  | .weights => haveOf cfg row - keepOf cfg rows i

def needsOf (cfg : TreasuryConfig) (rows : List Row) : List Int :=
  if cfg.targets = .demand then demandNeeds cfg rows else weightNeeds cfg rows

theorem needsOf_eq (cfg : TreasuryConfig) (rows : List Row) :
    needsOf cfg rows = rows.zipIdx.map fun r =>
      if haveOf cfg r.1 < floorOf cfg rows r.2 then keepOf cfg rows r.2 - haveOf cfg r.1
      else if keepOf cfg rows r.2 < haveOf cfg r.1 then
        giveOf (spareOf cfg rows r.2 r.1) r.1.out
      else 0 := by
  unfold needsOf
  cases htargets : cfg.targets with
  | demand =>
    have hhave : haveOf cfg = fun row : Row => row.free + max row.locked 0 := by
      funext row
      simp only [haveOf, htargets]
    rw [if_pos rfl]
    simp only [demandNeeds, hhave, targetOf, keepOf, floorOf, spareOf, htargets]
  | weights =>
    rw [if_neg nofun]
    simp only [weightNeeds, haveOf, targetOf, keepOf, floorOf, spareOf, htargets]

theorem giveOf_nonpos (give out : Int) : giveOf give out ≤ 0 := by
  grind [giveOf]

theorem neg_giveOf_le {give out : Int} (h : giveOf give out < 0) :
    -giveOf give out ≤ give ∧ (0 ≤ out → -giveOf give out ≤ out) := by
  grind [giveOf]

/-- The need of one account, by the sign it has. -/
theorem need_getD {cfg : TreasuryConfig} {rows : List Row} {i : Nat} (hi : i < rows.length) :
    (0 < (needsOf cfg rows).getD i 0 →
      haveOf cfg (rows.getD i {}) < floorOf cfg rows i ∧
      (needsOf cfg rows).getD i 0 = keepOf cfg rows i - haveOf cfg (rows.getD i {})) ∧
    ((needsOf cfg rows).getD i 0 < 0 →
      -(needsOf cfg rows).getD i 0 ≤ haveOf cfg (rows.getD i {}) - keepOf cfg rows i ∧
      (floorOf cfg rows i ≤ keepOf cfg rows i →
        -(needsOf cfg rows).getD i 0 ≤ spareOf cfg rows i (rows.getD i {}) ∧
        (0 ≤ (rows.getD i {}).out → -(needsOf cfg rows).getD i 0 ≤ (rows.getD i {}).out))) := by
  have hat : (needsOf cfg rows).getD i 0 =
      if haveOf cfg (rows.getD i {}) < floorOf cfg rows i then
        keepOf cfg rows i - haveOf cfg (rows.getD i {})
      else if keepOf cfg rows i < haveOf cfg (rows.getD i {}) then
        giveOf (spareOf cfg rows i (rows.getD i {})) (rows.getD i {}).out
      else 0 := by
    rw [needsOf_eq]
    simp [getD_eq_getElem?_getD, hi]
  have hspare : spareOf cfg rows i (rows.getD i {}) ≤
      haveOf cfg (rows.getD i {}) - keepOf cfg rows i := by
    unfold spareOf
    split <;> omega
  generalize (rows.getD i {}) = row at hat hspare
  have hgive := giveOf_nonpos (spareOf cfg rows i row) row.out
  have hle := @neg_giveOf_le (spareOf cfg rows i row) row.out
  rw [hat]
  by_cases hshort : haveOf cfg row < floorOf cfg rows i
  · rw [if_pos hshort]
    exact ⟨fun _ => ⟨hshort, rfl⟩, fun _ => ⟨by omega, fun _ => by omega⟩⟩
  rw [if_neg hshort]
  split_ifs with hover
  · refine ⟨fun h => by omega, fun h => ?_⟩
    have hsome := hle h
    exact ⟨by omega, fun _ => hsome⟩
  · exact ⟨fun h => by omega, fun h => by omega⟩

/-! ## The accounts, scanned -/

variable {cfg : TreasuryConfig} {accounts : List TreasuryAccount}

theorem indexOf_getD (hnodup : cfg.members.Nodup) {i : Nat} (hi : i < cfg.members.length) :
    cfg.indexOf (cfg.members.getD i .invalid) = i := by
  rw [getD_eq_getElem _ _ hi]
  unfold indexOf
  rw [List.idxOf?_eq_some_iff.mpr ⟨hi, rfl, fun j hj h => ?_⟩]
  exact absurd (hnodup.getElem_inj_iff.mp h) (by omega)

theorem scan_rows (hcap : cfg.members.length ≤ kMax) (hnodup : cfg.members.Nodup)
    {s : List Row × Bool} {rows : List Row} {declared : Bool}
    (hlen : s.1.length = cfg.members.length) (h : scan cfg accounts s = some (rows, declared)) :
    rows.length = cfg.members.length ∧
    (∀ a ∈ accounts, a.venue ∈ cfg.members → a.known = true) ∧
    ∀ i < cfg.members.length, rows.getD i {} =
      ((accountOf accounts (cfg.members.getD i .invalid)).map rowOf).getD (s.1.getD i {}) := by
  induction accounts generalizing s with
  | nil =>
    cases h
    exact ⟨hlen, fun a ha => absurd ha not_mem_nil, fun i _ => rfl⟩
  | cons a rest ih =>
    rw [scan] at h
    have hlast : ∀ v, accountOf (a :: rest) v =
        (accountOf rest v).or (if a.venue = v then some a else none) := by
      intro v
      simp only [accountOf, reverse_cons, find?_append]
      congr 1
      by_cases hv : a.venue = v <;> simp [hv]
    by_cases hmem : a.venue ∈ cfg.members
    · obtain ⟨hlt, hat⟩ := getD_indexOf hmem
      rw [if_neg (Nat.not_le.mpr hlt)] at h
      cases hknown : a.known with
      | false => simp [hknown] at h
      | true =>
        rw [hknown, if_neg (by decide)] at h
        obtain ⟨hrows, hall, hget⟩ := ih (by rw [length_set, hlen]) h
        refine ⟨hrows, forall_mem_cons.mpr ⟨fun _ => hknown, hall⟩, fun i hi => ?_⟩
        rw [hget i hi, hlast]
        cases accountOf rest (cfg.members.getD i .invalid) with
        | some b => rfl
        | none =>
          by_cases hi' : cfg.indexOf a.venue = i
          · subst hi'
            rw [hat, if_pos rfl, getD_eq_getElem?_getD, getElem?_set_self (by omega)]
            rfl
          · rw [if_neg, getD_eq_getElem?_getD, getElem?_set_ne hi', ← getD_eq_getElem?_getD]
            · rfl
            · rintro heq
              exact hi' (by rw [heq, indexOf_getD hnodup hi])
    · have hnone : cfg.indexOf a.venue = kMax := by
        unfold indexOf
        rw [List.idxOf?_eq_none_iff.mpr hmem]
      rw [if_pos (by omega)] at h
      obtain ⟨hrows, hall, hget⟩ := ih hlen h
      refine ⟨hrows, forall_mem_cons.mpr ⟨fun h => absurd h hmem, hall⟩, fun i hi => ?_⟩
      rw [hget i hi, hlast, if_neg, Option.or_none]
      intro heq
      exact hmem (by rw [heq, getD_eq_getElem _ _ hi]; exact getElem_mem hi)

/-! ## What the transfers move -/

/-- What transfers move on one of their ends at an account. -/
def moved (side : PlannedTransfer → VenueId) (ts : List PlannedTransfer) (v : VenueId) : Int :=
  ((ts.filter fun t => side t = v).map PlannedTransfer.amount).sum

abbrev paid := moved PlannedTransfer.payer

abbrev received := moved PlannedTransfer.payee

theorem moved_append (side : PlannedTransfer → VenueId) (ts : List PlannedTransfer)
    (t : PlannedTransfer) (v : VenueId) :
    moved side (ts ++ [t]) v = moved side ts v + if side t = v then t.amount else 0 := by
  unfold moved
  by_cases hv : side t = v <;> simp [filter_append, hv]

/-- Where the matching stands: what each account still needs, and what it moved. -/
structure Settles (cfg : TreasuryConfig) (need : List Int)
    (s : List Int × List PlannedTransfer) : Prop where
  length : s.1.length = cfg.members.length
  balance : ∀ i < cfg.members.length, s.1.getD i 0 + received s.2 (cfg.members.getD i .invalid) -
    paid s.2 (cfg.members.getD i .invalid) = need.getD i 0
  short : ∀ i < cfg.members.length, 0 ≤ need.getD i 0 →
    0 ≤ s.1.getD i 0 ∧ paid s.2 (cfg.members.getD i .invalid) = 0
  spare : ∀ i < cfg.members.length, need.getD i 0 ≤ 0 →
    s.1.getD i 0 ≤ 0 ∧ received s.2 (cfg.members.getD i .invalid) = 0
  amounts : ∀ t ∈ s.2, 0 < t.amount ∧ (0 < cfg.step → cfg.step ∣ t.amount) ∧
    cfg.minAmount ≤ t.amount ∧ (0 < cfg.maxAmount → t.amount ≤ cfg.maxAmount)
  members : ∀ t ∈ s.2, t.payer ∈ cfg.members ∧ t.payee ∈ cfg.members
  room : s.2.length ≤ kMax

theorem members_inj (hnodup : cfg.members.Nodup) {i j : Nat} (hi : i < cfg.members.length)
    (hj : j < cfg.members.length)
    (h : cfg.members.getD i .invalid = cfg.members.getD j .invalid) : i = j := by
  rw [← indexOf_getD hnodup hi, h, indexOf_getD hnodup hj]

theorem Settles.agree (hnodup : cfg.members.Nodup) {need : List Int}
    {s : List Int × List PlannedTransfer} (h : Settles cfg need s) {payee payer : Nat}
    {amount : Int} (hpayee : payee < cfg.members.length) (hpayer : payer < cfg.members.length)
    (hagreed : Agreed cfg payee payer s amount) :
    Settles cfg need (agree cfg payee payer s amount) := by
  have hneed : ∀ i < cfg.members.length, (Treasury.agree cfg payee payer s amount).1.getD i 0 =
      s.1.getD i 0 - (if payee = i then amount else 0) + if payer = i then amount else 0 := by
    intro i hi
    have hlen := h.length
    have hdiffer := hagreed.differ
    simp only [Treasury.agree, getD_eq_getElem?_getD, getElem?_set, length_set]
    grind
  have hmoved : ∀ side : PlannedTransfer → VenueId, ∀ j < cfg.members.length,
      side ⟨cfg.members.getD payer .invalid, cfg.members.getD payee .invalid, amount⟩ =
        cfg.members.getD j .invalid → ∀ i < cfg.members.length,
      moved side (Treasury.agree cfg payee payer s amount).2 (cfg.members.getD i .invalid) =
        moved side s.2 (cfg.members.getD i .invalid) + if j = i then amount else 0 := by
    intro side j hj hside i hi
    simp only [Treasury.agree, moved_append, hside]
    congr 1
    exact if_congr ⟨members_inj hnodup hj hi, fun h => by rw [h]⟩ rfl rfl
  have hpaid : ∀ i < cfg.members.length,
      paid (Treasury.agree cfg payee payer s amount).2 (cfg.members.getD i .invalid) =
        paid s.2 (cfg.members.getD i .invalid) + if payer = i then amount else 0 :=
    hmoved PlannedTransfer.payer payer hpayer rfl
  have hreceived : ∀ i < cfg.members.length,
      received (Treasury.agree cfg payee payer s amount).2 (cfg.members.getD i .invalid) =
        received s.2 (cfg.members.getD i .invalid) + if payee = i then amount else 0 :=
    hmoved PlannedTransfer.payee payee hpayee rfl
  have hpos := hagreed.pos
  have hofneed := hagreed.need
  have hofspare := hagreed.spare
  constructor
  · simp only [Treasury.agree, length_set, h.length]
  · intro i hi
    rw [hneed i hi, hreceived i hi, hpaid i hi, ← h.balance i hi]
    omega
  · intro i hi hshort
    obtain ⟨hleft, hnone⟩ := h.short i hi hshort
    rw [hneed i hi, hpaid i hi, hnone]
    have hnot : payer ≠ i := by
      rintro rfl
      omega
    rw [if_neg hnot]
    refine ⟨?_, rfl⟩
    split
    · subst payee
      omega
    · omega
  · intro i hi hspare
    obtain ⟨hleft, hnone⟩ := h.spare i hi hspare
    rw [hneed i hi, hreceived i hi, hnone]
    have hnot : payee ≠ i := by
      rintro rfl
      omega
    rw [if_neg hnot]
    refine ⟨?_, rfl⟩
    split
    · subst payer
      omega
    · omega
  · intro t ht
    rcases mem_append.mp ht with ht | ht
    · exact h.amounts t ht
    · rw [mem_singleton.mp ht]
      exact ⟨hpos, hagreed.step, hagreed.min, hagreed.max⟩
  · intro t ht
    rcases mem_append.mp ht with ht | ht
    · exact h.members t ht
    rw [mem_singleton.mp ht]
    constructor
    · exact (getD_eq_getElem _ _ hpayer).symm ▸ getElem_mem hpayer
    · exact (getD_eq_getElem _ _ hpayee).symm ▸ getElem_mem hpayee
  · have hroom := h.room
    have hfull := hagreed.room
    simp only [Treasury.agree, length_append, length_singleton]
    omega

/-- The two ends of a transfer. -/
def ends (t : PlannedTransfer) : VenueId × VenueId := (t.payer, t.payee)

theorem settles_matchNeeds (hnodup : cfg.members.Nodup) {need : List Int}
    (hlen : need.length = cfg.members.length) :
    (∃ s, s.2 = matchNeeds cfg need ∧ Settles cfg need s) ∧
      ((matchNeeds cfg need).map ends).Nodup := by
  unfold matchNeeds
  extract_lets n order givers
  have horder : order.Nodup ∧ ∀ i ∈ order, i < n := by
    have hperm := perm_insertionSort (fun a b => need.getD b 0 ≤ need.getD a 0) (List.range n)
    exact ⟨hperm.nodup_iff.mpr nodup_range, fun i hi => mem_range.mp (hperm.mem_iff.mp hi)⟩
  have hgivers : givers.Nodup ∧ ∀ i ∈ givers, i < n := by
    have hperm := perm_insertionSort (fun a b => need.getD a 0 ≤ need.getD b 0) (List.range n)
    exact ⟨hperm.nodup_iff.mpr nodup_range, fun i hi => mem_range.mp (hperm.mem_iff.mp hi)⟩
  -- No transfer yet goes to a payee, or from a payer to this payee, that is still to come.
  let P : List Nat → List Int × List PlannedTransfer → Prop := fun order s =>
    Settles cfg need s ∧ (s.2.map ends).Nodup ∧ order.Nodup ∧ (∀ i ∈ order, i < n) ∧
      ∀ t ∈ s.2, ∀ i ∈ order, t.payee ≠ cfg.members.getD i .invalid
  have hdone : P [] (payees cfg givers order (need, [])) := by
    refine payees_rule (P := P) ?_ ?_ order ?_
    · intro payee rest s h
      exact ⟨h.1, h.2.1, h.2.2.1.of_cons, fun i hi => h.2.2.2.1 i (mem_cons_of_mem _ hi),
        fun t ht i hi => h.2.2.2.2 t ht i (mem_cons_of_mem _ hi)⟩
    · intro payee rest s ⟨hs, hpairs, hrest, hlt, hfresh⟩
      have hpayee := hlt payee mem_cons_self
      let Q : List Nat → List Int × List PlannedTransfer → Prop := fun givers s =>
        P rest s ∧ givers.Nodup ∧ (∀ i ∈ givers, i < n) ∧
          ∀ i ∈ givers, (cfg.members.getD i .invalid, cfg.members.getD payee .invalid) ∉
            s.2.map ends
      have hpaid : Q [] (payers cfg payee givers s) := by
        refine payers_rule (P := Q) ?_ ?_ givers ?_
        · intro payer later s h
          exact ⟨h.1, h.2.1.of_cons, fun i hi => h.2.2.1 i (mem_cons_of_mem _ hi),
            fun i hi => h.2.2.2 i (mem_cons_of_mem _ hi)⟩
        · intro payer later s amount ⟨⟨hs, hpairs, hrest', hlt', hfresh'⟩, hgs, hglt, hpair⟩ hagreed
          have hpayer := hglt payer mem_cons_self
          refine ⟨⟨hs.agree hnodup hpayee hpayer hagreed, ?_, hrest', hlt', ?_⟩, hgs.of_cons,
            fun i hi => hglt i (mem_cons_of_mem _ hi), ?_⟩
          · simp only [agree, map_append]
            refine nodup_append.mpr ⟨hpairs, nodup_singleton _, ?_⟩
            rintro a ha b hb rfl
            rw [mem_singleton.mp hb] at ha
            exact hpair payer mem_cons_self ha
          · intro t ht i hi
            rcases mem_append.mp ht with ht | ht
            · exact hfresh' t ht i hi
            rw [mem_singleton.mp ht]
            intro heq
            have := members_inj hnodup hpayee (hlt' i hi) heq
            exact (nodup_cons.mp hrest).1 (this ▸ hi)
          · intro i hi hmem
            simp only [agree, map_append] at hmem
            rcases mem_append.mp hmem with hmem | hmem
            · exact hpair i (mem_cons_of_mem _ hi) hmem
            · have heq := congrArg Prod.fst (mem_singleton.mp hmem)
              have := members_inj hnodup (hglt i (mem_cons_of_mem _ hi)) hpayer heq
              exact (nodup_cons.mp hgs).1 (this ▸ hi)
        · refine ⟨⟨hs, hpairs, hrest.of_cons, fun i hi => hlt i (mem_cons_of_mem _ hi),
            fun t ht i hi => hfresh t ht i (mem_cons_of_mem _ hi)⟩, hgivers.1, hgivers.2, ?_⟩
          intro i _ hmem
          obtain ⟨t, ht, heq⟩ := mem_map.mp hmem
          exact hfresh t ht payee mem_cons_self (congrArg Prod.snd heq)
      exact hpaid.1
    · refine ⟨⟨hlen, fun i _ => by simp [moved], fun i _ h => ⟨h, rfl⟩, fun i _ h => ⟨h, rfl⟩,
        nofun, nofun, Nat.zero_le _⟩, nodup_nil, horder.1, horder.2, nofun⟩
  exact ⟨⟨_, rfl, hdone.1⟩, hdone.2.1⟩

/-! ## The plan -/

/-- Transfers that overdraw no payer and overfill no payee.  A floor above what the account keeps
makes a payer of an account below its floor: its free balance and its limit are not looked at. -/
structure Bounded (cfg : TreasuryConfig) (accounts : List TreasuryAccount)
    (ts : List PlannedTransfer) : Prop where
  payer : ∀ i < cfg.members.length, 0 < paid ts (cfg.members.getD i .invalid) →
    let rows := rowsOf cfg accounts
    let row := rows.getD i {}
    let gives := paid ts (cfg.members.getD i .invalid)
    received ts (cfg.members.getD i .invalid) = 0 ∧
    keepOf cfg rows i ≤ haveOf cfg row - gives ∧
    (floorOf cfg rows i ≤ keepOf cfg rows i →
      (cfg.targets = .demand → 0 ≤ row.free - gives) ∧ (0 ≤ row.out → gives ≤ row.out))
  payee : ∀ i < cfg.members.length, 0 < received ts (cfg.members.getD i .invalid) →
    let rows := rowsOf cfg accounts
    let row := rows.getD i {}
    paid ts (cfg.members.getD i .invalid) = 0 ∧
    haveOf cfg row < floorOf cfg rows i ∧
    haveOf cfg row + received ts (cfg.members.getD i .invalid) ≤ keepOf cfg rows i
  amounts : ∀ t ∈ ts, 0 < t.amount ∧ (0 < cfg.step → cfg.step ∣ t.amount) ∧
    cfg.minAmount ≤ t.amount ∧ (0 < cfg.maxAmount → t.amount ≤ cfg.maxAmount)
  members : ∀ t ∈ ts, t.payer ∈ cfg.members ∧ t.payee ∈ cfg.members
  pairs : (ts.map ends).Nodup
  room : ts.length ≤ kMax
  known : ∀ v ∈ cfg.members,
    (∀ a ∈ accounts, a.venue ≠ v) ∨ (∃ a ∈ accounts, a.venue = v ∧ a.known = false) → ts = []

theorem Bounded.nil (cfg : TreasuryConfig) (accounts : List TreasuryAccount) :
    Bounded cfg accounts [] :=
  ⟨fun _ _ h => absurd h (Int.lt_irrefl 0), fun _ _ h => absurd h (Int.lt_irrefl 0), nofun, nofun,
    nodup_nil, Nat.zero_le _, fun _ _ _ => rfl⟩

/-- The needs of known accounts give bounded transfers. -/
theorem bounded_matchNeeds (hnodup : cfg.members.Nodup)
    (hknown : ∀ v ∈ cfg.members, (∃ a ∈ accounts, a.venue = v) ∧
      ∀ a ∈ accounts, a.venue = v → a.known = true) :
    Bounded cfg accounts (matchNeeds cfg (needsOf cfg (rowsOf cfg accounts))) := by
  have hrows : (rowsOf cfg accounts).length = cfg.members.length := length_map _
  have hlen : (needsOf cfg (rowsOf cfg accounts)).length = cfg.members.length := by
    rw [needsOf_eq, length_map, length_zipIdx, hrows]
  obtain ⟨⟨s, hts, hs⟩, hpairs⟩ := settles_matchNeeds hnodup hlen
  rw [← hts] at hpairs ⊢
  refine ⟨fun i hi hpaid => ?_, fun i hi hgot => ?_, hs.amounts, hs.members, hpairs, hs.room, ?_⟩
  · have hsign : (needsOf cfg (rowsOf cfg accounts)).getD i 0 < 0 := by
      by_contra hge
      have := (hs.short i hi (Int.not_lt.mp hge)).2
      omega
    obtain ⟨hleft, hnone⟩ := hs.spare i hi hsign.le
    obtain ⟨hover, hfloor⟩ := (need_getD (hrows ▸ hi)).2 hsign
    have hbalance := hs.balance i hi
    refine ⟨hnone, by omega, fun hle => ⟨fun htargets => ?_, fun hout => ?_⟩⟩
    · have hspare := (hfloor hle).1
      simp only [spareOf, htargets] at hspare
      omega
    · omega
  · have hsign : 0 < (needsOf cfg (rowsOf cfg accounts)).getD i 0 := by
      by_contra hle
      have := (hs.spare i hi (Int.not_lt.mp hle)).2
      omega
    obtain ⟨hleft, hnone⟩ := hs.short i hi hsign.le
    obtain ⟨hfloor, hneed⟩ := (need_getD (hrows ▸ hi)).1 hsign
    have hbalance := hs.balance i hi
    exact ⟨hnone, hfloor, by omega⟩
  · rintro v hv (hmissing | ⟨a, ha, hav, hunknown⟩)
    · obtain ⟨a, ha, hav⟩ := (hknown v hv).1
      exact absurd hav (hmissing a ha)
    · simp [(hknown v hv).2 a ha hav] at hunknown

theorem plan_never_overdraws (cfg : TreasuryConfig) (accounts : List TreasuryAccount)
    (hnodup : cfg.members.Nodup) (hcap : cfg.members.length ≤ kMax) :
    Bounded cfg accounts (planTransfers cfg accounts).transfers := by
  unfold planTransfers
  split
  · exact .nil cfg accounts
  cases hscan : scan cfg accounts (List.replicate cfg.members.length {}, false) with
  | none => exact .nil cfg accounts
  | some scanned =>
    obtain ⟨rows, declared⟩ := scanned
    obtain ⟨hlen, hall, hget⟩ := scan_rows hcap hnodup length_replicate hscan
    simp only
    split
    · exact .nil cfg accounts
    split
    · exact .nil cfg accounts
    split
    · exact .nil cfg accounts
    next hseen _ =>
    have hrow : ∀ i (hi : i < cfg.members.length), rows.getD i {} =
        ((accountOf accounts (cfg.members.getD i .invalid)).map rowOf).getD {} := by
      intro i hi
      rw [hget i hi, getD_replicate _ hi]
    have heq : rows = rowsOf cfg accounts := by
      refine ext_getElem (by rw [hlen, rowsOf, length_map]) fun i hi _ => ?_
      have hi' := hlen ▸ hi
      rw [← getD_eq_getElem rows {} hi, hrow i hi', getD_eq_getElem _ _ hi']
      simp [rowsOf]
    subst heq
    refine bounded_matchNeeds hnodup fun v hv => ⟨?_, fun a ha hav => hall a ha (hav ▸ hv)⟩
    obtain ⟨i, hi, rfl⟩ := mem_iff_getElem.mp hv
    by_contra hmissing
    apply hseen
    refine any_eq_true.mpr ⟨_, getElem_mem (hlen ▸ hi), ?_⟩
    have hnone : accountOf accounts cfg.members[i] = none :=
      List.find?_eq_none.mpr fun a ha h =>
        hmissing ⟨a, mem_reverse.mp ha, of_decide_eq_true h⟩
    simp [rowsOf, hnone]

/-- Two accounts whose floors are halves of their targets, without headroom. -/
def halves (minFree step : Int) : TreasuryConfig where
  targets := .demand
  members := [⟨0⟩, ⟨1⟩]
  minFree := [minFree, 0]
  step := step
  shares :=
    { demand := fun want cash i =>
        if want.sum ≤ cash then want.getD i 0 else want.getD i 0 * max cash 0 / want.sum
      weight := fun total _ => total / 2
      weighed := true
      keep := fun target => target / 2 }

/-- A payer with `free` and `locked`, and a payee that needs `need`. -/
def funding (free locked need : Int) : List TreasuryAccount :=
  [{ venue := ⟨0⟩, free := free, known := true, locked := locked },
   { venue := ⟨1⟩, free := 0, known := true, need := need }]

theorem plan_never_overdraws_halves :
    (planTransfers (halves 10 1) (funding 100 0 50)).transfers = [⟨⟨0⟩, ⟨1⟩, 50⟩] ∧
      Bounded (halves 10 1) (funding 100 0 50)
        (planTransfers (halves 10 1) (funding 100 0 50)).transfers :=
  ⟨by decide +kernel, plan_never_overdraws _ _ (by decide) (by decide)⟩

/-- A target below zero is below its floor, and the account pays out of a free balance it does not
have; funds locked below zero count as none; a step of zero divides no amount. -/
theorem not_plan_never_overdraws :
    ((planTransfers (halves (-100) 1) (funding (-80) 0 1000)).transfers = [⟨⟨0⟩, ⟨1⟩, 20⟩] ∧
      (-80 : Int) - 20 < 0) ∧
    ((planTransfers (halves 0 0) (funding 100 (-60) 50)).transfers = [⟨⟨0⟩, ⟨1⟩, 50⟩] ∧
      (100 : Int) + -60 - 50 <
        targetOf (halves 0 0) (rowsOf (halves 0 0) (funding 100 (-60) 50)) 0 ∧
      ¬(halves 0 0).step ∣ 50) := by
  decide +kernel

end FastMM.Treasury
