/-
  Gateway/SharedPositions.lean --- the shares of a shared instrument add up to its position.

  Source: `src/live/gateway.cpp` (`publish_unexplained` to `account_fill_shared`).

  The account's dedupe remembers each execution with the strategy it counts towards.  The
  invariant reads every share off that memory: what the stores brought, and the executions
  remembered with its tag.
-/
import FastMM.Gateway.AccountShares
import Mathlib.Algebra.BigOperators.Fin
set_option autoImplicit false

namespace FastMM

open Function Foundation Gateway AccountBook KeyedTable List

/-! ## Bookings -/

namespace AccountBook

variable {b : AccountBook} {insts : InstrumentTable} {i : Fin kMaxInstruments} {m : OrderFillMsg}

theorem heldQty_nonneg (h : 0 ≤ m.qty) : 0 ≤ heldQty m := by
  unfold heldQty
  split
  · exact h
  dsimp only
  generalize (if m.side = .buy then m.qty - m.fee else m.qty + m.fee) = held
  split_ifs with hpos
  · exact le_of_lt hpos
  · exact h

/-- The account's position moves by what `position_change` says. -/
theorem book_qty (hi : insts.index m.hdr.instrument = some i) (h : 0 ≤ m.qty) :
    ((b.book insts m).pos.pos i).qty = (b.pos.pos i).qty + positionChange m := by
  unfold book
  rw [hi]
  dsimp only
  split_ifs with hpos
  · show ((b.pos.onFill ..).pos i).qty = _
    rw [PositionTracker.onFill_qty, if_pos rfl]
    rfl
  · have hzero : heldQty m = 0 := le_antisymm (not_lt.mp hpos) (heldQty_nonneg h)
    unfold positionChange
    rw [hzero]
    split <;> simp

theorem book_seen : (b.book insts m).seen = b.seen := by
  unfold book
  split
  · rfl
  · dsimp only
    split <;> rfl

theorem addPosition_qty (hi : i.val < insts.count) (qty : Qty) (avg : Price) :
    ((b.addPosition insts i qty avg).pos.pos i).qty = (b.pos.pos i).qty + qty := by
  unfold addPosition
  split_ifs with h
  · rw [h.resolve_left (not_not.mpr hi)]
    exact (add_zero _).symm
  · show ((b.pos.set ..).pos i).qty = _
    rw [PositionTracker.set_qty, if_pos rfl]

theorem addPosition_seen (qty : Qty) (avg : Price) :
    (b.addPosition insts i qty avg).seen = b.seen := by
  unfold addPosition
  split <;> rfl

theorem setPosition_seen (qty : Qty) (avg : Price) :
    (b.setPosition insts i qty avg).seen = b.seen := by
  unfold setPosition
  split <;> rfl

end AccountBook

namespace AccountShares

variable {C : GatewayConfig} {v v' : AccountShares} {i : Fin kMaxInstruments}
variable {m : OrderFillMsg} {tag : ShareTag} {d : Int}
variable {ops done : List Op} {op : Op}

/-! ## The parts of a position -/

/-- What counts towards a tag: a strategy's share, or the unattributed part. -/
def part (v : AccountShares) (i : Fin kMaxInstruments) (t : ShareTag) : Int :=
  if h : t = 0 then v.unattributed i else v.share i (t.pred h)

theorem part_succ (s : Fin kMaxSlots) : v.part i s.succ = v.share i s := by
  unfold part
  rw [dif_neg (Fin.succ_ne_zero s), Fin.pred_succ]

theorem addShare_part (t : ShareTag) :
    (v.addShare i tag d).part i t = v.part i t + if t = tag then d else 0 := by
  unfold addShare part
  by_cases htag : tag = 0
  · rw [dif_pos htag, htag]
    by_cases ht : t = 0
    · rw [dif_pos ht, dif_pos ht, if_pos ht]
      exact update_self ..
    · rw [dif_neg ht, dif_neg ht, if_neg ht, add_zero]
  rw [dif_neg htag]
  by_cases ht : t = 0
  · rw [dif_pos ht, dif_pos ht, if_neg fun h => htag (h.symm.trans ht), add_zero]
  rw [dif_neg ht, dif_neg ht]
  show update v.share i (update (v.share i) _ _) i _ = _
  rw [update_self]
  by_cases heq : t = tag
  · subst heq
    rw [update_self, if_pos rfl]
  · rw [if_neg heq, add_zero, update_of_ne fun h => heq (Fin.pred_inj.mp h)]

theorem addShare_explained : (v.addShare i tag d).explained i = v.explained i + d := by
  unfold addShare
  dsimp only
  rw [update_self]
  split <;> rfl

theorem addShare_book : (v.addShare i tag d).book = v.book := by
  unfold addShare
  dsimp only
  split <;> rfl

theorem addShare_unexplained : (v.addShare i tag d).unexplained = v.unexplained := by
  unfold addShare
  dsimp only
  split <;> rfl

/-! ## What a run brings -/

def Op.execution : Op → Option OrderFillMsg
  | .fill m _ _ => some m
  | _ => none

def executions (ops : List Op) : List OrderFillMsg := ops.filterMap Op.execution

/-- What a call seeds of a tag. -/
def Op.seeds : Op → ShareTag → Int
  | .seedShare slot qty _, t => if t = slot.succ then qty else 0
  | _, _ => 0

/-- What the strategies' stores brought. -/
def seeded (ops : List Op) (t : ShareTag) : Int := (ops.map fun op => op.seeds t).sum

/-- What the execution of a key moves the position by. -/
def changeOf (ops : List Op) (k : UInt64) : Int :=
  ((executions ops).find? fun m => execKey m = k).elim 0 positionChange

/-- What the account booked of a run's executions for a tag. -/
def counted (v : AccountShares) (ops : List Op) (t : ShareTag) : Int :=
  v.book.seen.table.total fun k was => if was = t then changeOf ops k else 0

/-- Two copies of an execution agree on it. -/
structure SameExecution (m m' : OrderFillMsg) : Prop where
  execId : m'.execId = m.execId
  side : m'.side = m.side
  qty : m'.qty = m.qty
  fee : m'.fee = m.fee
  feeAsset : m'.feeAsset = m.feeAsset

/-- The executions of a run: named, of one shared instrument, apart in the account's memory, and
few enough for it. -/
structure Executions (C : GatewayConfig) (i : Fin kMaxInstruments) (ops : List Op) : Prop where
  shared : C.shared i.val = true
  traded : i.val < C.insts.count
  onInst : ∀ m ∈ executions ops, m.hdr.instrument.value = i.val
  named : ∀ m ∈ executions ops, m.execId.empty = false
  qty_nonneg : ∀ m ∈ executions ops, 0 ≤ m.qty
  copies : ∀ m ∈ executions ops, ∀ m' ∈ executions ops, execKey m = execKey m' → SameExecution m m'
  few : ((executions ops).map execKey).dedup.length < kExecWindow

section

variable (hx : Executions C i ops) (hm : m ∈ executions ops)
include hx hm

theorem Executions.index : C.insts.index m.hdr.instrument = some i := by
  have hi := hx.onInst m hm
  unfold InstrumentTable.index
  rw [dif_pos (hi ▸ hx.traded)]
  exact congrArg some (Fin.ext hi)

theorem Executions.changeOf_eq : changeOf ops (execKey m) = positionChange m := by
  unfold changeOf
  cases hfind : (executions ops).find? fun m' => execKey m' = execKey m with
  | none =>
    rw [find?_eq_none] at hfind
    exact absurd (decide_eq_true rfl) (hfind m hm)
  | some m' =>
    have hkey := find?_some hfind
    rw [decide_eq_true_iff] at hkey
    have hsame := hx.copies m hm m' (mem_of_find?_eq_some hfind) hkey.symm
    show positionChange m' = _
    unfold positionChange heldQty
    rw [hsame.side, hsame.qty, hsame.fee, hsame.feeAsset]

/-- A new execution finds room in the memory. -/
theorem Executions.room (hkeys : ∀ k ∈ v.book.seen.table.keys, k ∈ (executions ops).map execKey)
    (hnew : v.book.seen.table.find (execKey m) = none) :
    v.book.seen.table.size < kExecWindow := by
  have hnodup : (execKey m :: v.book.seen.table.keys).Nodup :=
    nodup_cons.mpr ⟨find_eq_none_iff.mp hnew, v.book.seen.table.nodup⟩
  have hsub : execKey m :: v.book.seen.table.keys ⊆ ((executions ops).map execKey).dedup := by
    intro k hk
    rw [mem_dedup]
    rcases mem_cons.mp hk with rfl | hk
    · exact mem_map_of_mem hm
    · exact hkeys k hk
  have hle := (hnodup.subperm hsub).length_le
  have hsize : v.book.seen.table.keys.length = v.book.seen.table.size := length_map ..
  have hfew := hx.few
  rw [length_cons] at hle
  omega

end

/-! ## The invariant -/

/-- What the account holds of an instrument after a part of a run. -/
structure Kept (ops done : List Op) (i : Fin kMaxInstruments) (v : AccountShares) : Prop where
  explained : v.explained i = ∑ t, v.part i t
  unexplained : v.unexplained i = v.position i - v.explained i
  unmoved : (∀ qty avg, .setPosition qty avg ∉ done) → v.unexplained i = 0
  part : ∀ t, v.part i t = seeded done t + v.counted ops t
  keys : ∀ k ∈ v.book.seen.table.keys, k ∈ (executions ops).map execKey

theorem kept_create (ops : List Op) (startMs : Int) : Kept ops [] i { startMs := startMs } where
  explained := by
    refine (Finset.sum_eq_zero fun t _ => ?_).symm
    unfold part
    split <;> rfl
  unexplained := rfl
  unmoved _ := rfl
  part t := by
    unfold part
    split <;> rfl
  keys k hk := absurd hk not_mem_nil

/-- A call moves each part by some amount, and the position by their sum or to a reported one. -/
theorem Kept.move (h : Kept ops done i v) (op : Op) (d : ShareTag → Int)
    (hpart : ∀ t, v'.part i t = v.part i t + d t)
    (hexplained : v'.explained i = v.explained i + ∑ t, d t)
    (hunexplained : v'.unexplained i = v'.position i - v'.explained i)
    (hposition : (∃ qty avg, op = .setPosition qty avg) ∨ v'.position i = v.position i + ∑ t, d t)
    (hcounted : ∀ t, v'.counted ops t = v.counted ops t + (d t - op.seeds t))
    (hkeys : ∀ k ∈ v'.book.seen.table.keys, k ∈ (executions ops).map execKey) :
    Kept ops (done ++ [op]) i v' where
  explained := by
    rw [hexplained, h.explained, ← Finset.sum_add_distrib]
    exact Finset.sum_congr rfl fun t _ => (hpart t).symm
  unexplained := hunexplained
  unmoved hno := by
    have hsame := hposition.resolve_left fun ⟨qty, avg, hop⟩ =>
      hno qty avg (hop ▸ mem_append_right _ (mem_singleton_self _))
    have hzero := h.unmoved fun qty avg hmem => hno qty avg (mem_append_left _ hmem)
    rw [hunexplained, hsame, hexplained, add_sub_add_right_eq_sub, ← h.unexplained, hzero]
  part t := by
    have hseeded : seeded (done ++ [op]) t = seeded done t + op.seeds t := by
      unfold seeded
      rw [map_append, sum_append, map_singleton, sum_singleton]
    rw [hpart, h.part, hcounted, hseeded]
    omega
  keys := hkeys

/-- A call that moves nothing. -/
theorem Kept.still (h : Kept ops done i v) (op : Op) (hseeds : ∀ t, op.seeds t = 0)
    (hbook : v'.book = v.book) (hexplained : v'.explained = v.explained)
    (hpart : ∀ t, v'.part i t = v.part i t) (hunexplained : v'.unexplained = v.unexplained) :
    Kept ops (done ++ [op]) i v' := by
  have hposition : v'.position i = v.position i := by
    unfold position
    rw [hbook]
  refine h.move op (fun _ => 0) (fun t => ?_) ?_ ?_ (.inr ?_) (fun t => ?_) ?_
  · rw [hpart, add_zero]
  · rw [hexplained, Finset.sum_const_zero, add_zero]
  · rw [hunexplained, hexplained, hposition, h.unexplained]
  · rw [hposition, Finset.sum_const_zero, add_zero]
  · unfold counted
    rw [hbook, hseeds, sub_zero, add_zero]
  · rw [hbook]
    exact h.keys

theorem sum_single (t : ShareTag) (d : Int) : (∑ t', if t' = t then d else 0) = d := by
  rw [Finset.sum_ite_eq', if_pos (Finset.mem_univ t)]

theorem seedShare_seen (slot : Fin kMaxSlots) (qty : Qty) (avg : Price) :
    (v.seedShare C i qty avg slot).book.seen = v.book.seen := by
  show (addShare _ i slot.succ qty).book.seen = _
  rw [addShare_book]
  exact addPosition_seen qty avg

theorem setAccountPosition_seen (qty : Qty) (avg : Price) :
    (v.setAccountPosition C i qty avg).book.seen = v.book.seen := by
  unfold setAccountPosition
  dsimp only
  split <;> exact setPosition_seen qty avg

theorem Kept.seedShare (h : Kept ops done i v) (hi : i.val < C.insts.count) (slot : Fin kMaxSlots)
    (qty : Qty) (avg : Price) :
    Kept ops (done ++ [.seedShare slot qty avg]) i (v.seedShare C i qty avg slot) := by
  have hseen := @seedShare_seen C v i slot qty avg
  refine h.move _ (fun t => if t = slot.succ then qty else 0) (fun t => ?_) ?_ (update_self ..)
    (.inr ?_) (fun t => ?_) ?_
  · show (addShare _ i slot.succ qty).part i t = _
    rw [addShare_part]
    rfl
  · rw [sum_single]
    exact addShare_explained
  · rw [sum_single]
    show ((addShare _ i slot.succ qty).book.pos.pos i).qty = _
    rw [addShare_book]
    exact addPosition_qty hi qty avg
  · unfold counted
    rw [hseen]
    show _ = _ + ((if t = slot.succ then qty else 0) - if t = slot.succ then qty else 0)
    rw [sub_self, add_zero]
  · rw [hseen]
    exact h.keys

theorem Kept.setPosition (h : Kept ops done i v) (hshared : C.shared i.val = true) (qty : Qty)
    (avg : Price) :
    Kept ops (done ++ [.setPosition qty avg]) i (v.setAccountPosition C i qty avg) := by
  have hseen := @setAccountPosition_seen C v i qty avg
  have heq : v.setAccountPosition C i qty avg = publishUnexplained
      (publishQty { v with book := v.book.setPosition C.insts i qty avg } i) i := if_pos hshared
  rw [heq] at hseen ⊢
  refine h.move _ (fun _ => 0) (fun t => (add_zero _).symm) ?_ (update_self ..)
    (.inl ⟨qty, avg, rfl⟩) (fun t => ?_) ?_
  · rw [Finset.sum_const_zero, add_zero]
    rfl
  · unfold counted
    rw [hseen]
    exact (add_zero _).symm
  · rw [hseen]
    exact h.keys

/-! ## Executions -/

/-- What a call may do to the memory: nobody's executions become a strategy's, and no tag else
changes. -/
def Remembers (v v' : AccountShares) : Prop :=
  ∀ k t, v.book.seen.table.find k = some t →
    ∃ t', v'.book.seen.table.find k = some t' ∧ (t ≠ 0 → t' = t)

theorem Remembers.of_seen (h : v'.book.seen = v.book.seen) : Remembers v v' := fun k t ht =>
  ⟨t, by rw [h, ht], fun _ => rfl⟩

theorem Remembers.trans {v₁ v₂ v₃ : AccountShares} (h : Remembers v₁ v₂) (h' : Remembers v₂ v₃) :
    Remembers v₁ v₃ := by
  intro k t ht
  obtain ⟨t', ht', hsame⟩ := h k t ht
  obtain ⟨t'', ht'', hsame'⟩ := h' k t' ht'
  refine ⟨t'', ht'', fun hne => ?_⟩
  have heq := hsame hne
  rw [← heq]
  exact hsame' (heq ▸ hne)

/-- The execution is booked for the first time. -/
structure Booked (i : Fin kMaxInstruments) (m : OrderFillMsg) (tag : ShareTag)
    (v v' : AccountShares) : Prop where
  new : v.book.seen.table.find (execKey m) = none
  table : v'.book.seen.table = v.book.seen.table.add _ tag new
  position : v'.position i = v.position i + positionChange m
  part : ∀ t, v'.part i t = v.part i t + if t = tag then positionChange m else 0
  explained : v'.explained i = v.explained i + positionChange m
  unexplained : v'.unexplained i = v'.position i - v'.explained i

/-- An execution booked for nobody becomes a strategy's. -/
structure Retagged (i : Fin kMaxInstruments) (m : OrderFillMsg) (tag : ShareTag)
    (v v' : AccountShares) : Prop where
  nobody : v.book.seen.table.find (execKey m) = some 0
  table : v'.book.seen.table = v.book.seen.table.modify (execKey m) fun _ => tag
  position : v'.position i = v.position i
  part : ∀ t, v'.part i t = v.part i t + (if t = 0 then -positionChange m else 0) +
    if t = tag then positionChange m else 0
  explained : v'.explained i = v.explained i
  unexplained : v'.unexplained = v.unexplained

theorem bookFill_booked (hi : C.insts.index m.hdr.instrument = some i)
    (hnamed : m.execId.empty = false) (hqty : 0 ≤ m.qty)
    (hnew : v.book.seen.table.find (execKey m) = none)
    (hroom : v.book.seen.table.size < kExecWindow) :
    Booked i m tag v (v.bookFill C i m tag) := by
  obtain ⟨htrue, htable⟩ := v.book.seen.assign_new tag hnew hroom
  have hfirst : v.book.firstTime m tag =
      (true, { v.book with seen := (v.book.seen.assign (execKey m) tag).2 }) := by
    unfold firstTime RecentMap.find
    rw [if_neg (by rw [hnamed]; decide), hnew, if_neg (by decide), ← htrue]
  have hseen := @book_seen { v.book with seen := (v.book.seen.assign (execKey m) tag).2 } C.insts m
  have hposition := book_qty (b := { v.book with
    seen := (v.book.seen.assign (execKey m) tag).2 }) hi hqty
  unfold bookFill
  rw [hfirst]
  dsimp only
  generalize AccountBook.book _ C.insts m = book at hposition hseen
  have hmoved : position { v with book := book } i - v.position i = positionChange m := by
    show (book.pos.pos i).qty - (v.book.pos.pos i).qty = _
    rw [hposition, add_sub_cancel_left]
  rw [hmoved]
  generalize hw : balanceFill C { v with book := book } i m _ _ = w
  have hbook : w.book = book := by
    rw [← hw]
    rfl
  exact {
    new := hnew
    table := by
      show (w.addShare i tag _).book.seen.table = _
      rw [addShare_book, hbook, hseen, htable]
    position := by
      show ((w.addShare i tag _).book.pos.pos i).qty = _
      rw [addShare_book, hbook, hposition]
      rfl
    part := fun t => (addShare_part t).trans (by rw [← hw]; rfl)
    explained := addShare_explained.trans (by rw [← hw]; rfl)
    unexplained := update_self .. }

/-- What an execution does to the account: nothing, or the two. -/
theorem accountFillShared_cases (hx : Executions C i ops) (hm : m ∈ executions ops)
    (hkeys : ∀ k ∈ v.book.seen.table.keys, k ∈ (executions ops).map execKey) (delivered : Bool) :
    (∃ n, v.accountFillShared C m tag delivered = { v with accountSkipped := n }) ∨
      Retagged i m tag v (v.accountFillShared C m tag delivered) ∨
      Booked i m tag v (v.accountFillShared C m tag delivered) := by
  have hnamed := hx.named m hm
  have hseen : v.book.bookedAs m = v.book.seen.table.find (execKey m) := by
    unfold bookedAs
    rw [hnamed]
    rfl
  unfold accountFillShared
  rw [hx.index hm]
  dsimp only
  split
  · exact .inl ⟨_, rfl⟩
  rw [hseen]
  cases hfind : v.book.seen.table.find (execKey m) with
  | none =>
    exact .inr (.inr (bookFill_booked (hx.index hm) hnamed (hx.qty_nonneg m hm) hfind
      (hx.room hm hkeys hfind)))
  | some was =>
    dsimp only
    split_ifs with hmoves
    · obtain ⟨rfl, -, -⟩ := hmoves
      refine .inr (.inl ?_)
      have hbook : (v.book.retag m tag).seen.table =
          v.book.seen.table.modify (execKey m) fun _ => tag := by
        unfold AccountBook.retag
        rw [hnamed]
        exact v.book.seen.assign_known tag (by rw [hfind]; exact Option.some_ne_none 0)
      have hpos : (v.book.retag m tag).pos = v.book.pos := by
        unfold AccountBook.retag
        split <;> rfl
      exact {
        nobody := hfind
        table := by rw [addShare_book, addShare_book, hbook]
        position := by
          unfold position
          rw [addShare_book, addShare_book, hpos]
        part := fun t => by
          rw [addShare_part, addShare_part]
          rfl
        explained := by
          rw [addShare_explained, addShare_explained, neg_add_cancel_right]
        unexplained := by
          rw [addShare_unexplained, addShare_unexplained] }
    · exact .inl ⟨_, rfl⟩

theorem Kept.fill (h : Kept ops done i v) (hx : Executions C i ops) (hm : m ∈ executions ops)
    (delivered : Bool) :
    Kept ops (done ++ [.fill m tag delivered]) i (v.accountFillShared C m tag delivered) := by
  have hchange := hx.changeOf_eq hm
  rcases accountFillShared_cases hx hm h.keys delivered with ⟨n, heq⟩ | hre | hb
  · rw [heq]
    exact h.still _ (fun _ => rfl) rfl rfl (fun _ => rfl) rfl
  · refine h.move _ (fun t => (if t = 0 then -positionChange m else 0) +
      if t = tag then positionChange m else 0) (fun t => ?_) ?_ ?_ (.inr ?_)
      (fun t => ?_) ?_
    · rw [hre.part, add_assoc]
    · rw [Finset.sum_add_distrib, sum_single, sum_single, hre.explained, neg_add_cancel, add_zero]
    · rw [hre.unexplained, hre.position, hre.explained, h.unexplained]
    · rw [Finset.sum_add_distrib, sum_single, sum_single, hre.position, neg_add_cancel, add_zero]
    · unfold counted
      rw [hre.table, total_modify hre.nobody, hchange]
      show _ = _ + (_ - 0)
      have hneg : (if t = 0 then -positionChange m else 0) =
          -(if 0 = t then positionChange m else 0) := by
        by_cases ht : t = 0
        · rw [if_pos ht, if_pos ht.symm]
        · rw [if_neg ht, if_neg (Ne.symm ht), neg_zero]
      rw [hneg, if_congr (@eq_comm _ t tag) rfl rfl, sub_zero, ← add_assoc, ← sub_eq_add_neg]
    · intro k hk
      rw [hre.table] at hk
      refine h.keys k (by_contra fun hno => ?_)
      have hnone := find_eq_none_iff.mpr hno
      refine find_eq_none_iff.mp ?_ hk
      rw [find_modify]
      split_ifs with heq
      · rw [← heq, hnone]
        rfl
      · exact hnone
  · refine h.move _ (fun t => if t = tag then positionChange m else 0) hb.part ?_
      hb.unexplained (.inr ?_) (fun t => ?_) ?_
    · rw [sum_single, hb.explained]
    · rw [sum_single, hb.position]
    · unfold counted
      rw [hb.table, total_add, hchange]
      show _ = _ + (_ - 0)
      rw [sub_zero]
      congr 1
      exact if_congr eq_comm rfl rfl
    · intro k hk
      rw [hb.table] at hk
      obtain ⟨e, he, rfl⟩ := mem_map.mp hk
      rcases mem_append.mp he with he | he
      · exact h.keys _ (mem_map_of_mem he)
      · rw [mem_singleton.mp he]
        exact mem_map_of_mem hm

/-! ## Runs -/

section

variable (h : Kept ops done i v) (hx : Executions C i ops) (hm : m ∈ executions ops)
include h hx hm

/-- Executions move the position only on their way into the memory. -/
theorem fill_position (delivered : Bool)
    (hmoved : (v.accountFillShared C m tag delivered).position i ≠ v.position i) :
    v.book.seen.find (execKey m) = none ∧
      (v.accountFillShared C m tag delivered).book.seen.find (execKey m) = some tag := by
  rcases accountFillShared_cases hx hm h.keys delivered with ⟨n, heq⟩ | hre | hb
  · exact absurd (by rw [heq]; rfl) hmoved
  · exact absurd hre.position hmoved
  · refine ⟨hb.new, ?_⟩
    unfold RecentMap.find
    rw [hb.table, find_add, if_pos rfl]

theorem fill_remembers
    (delivered : Bool) : Remembers v (v.accountFillShared C m tag delivered) := by
  rcases accountFillShared_cases hx hm h.keys delivered with ⟨n, heq⟩ | hre | hb
  · exact .of_seen (by rw [heq])
  · intro k t ht
    rw [hre.table, find_modify]
    split_ifs with hk
    · rw [hk, hre.nobody] at ht
      rw [hre.nobody]
      exact ⟨tag, rfl, absurd (Option.some.inj ht).symm⟩
    · exact ⟨t, ht, fun _ => rfl⟩
  · intro k t ht
    refine ⟨t, ?_, fun _ => rfl⟩
    rw [hb.table, find_add, if_neg]
    · exact ht
    · intro hk
      simp [hk, hb.new] at ht

end

theorem mem_executions {delivered : Bool} (h : .fill m tag delivered ∈ ops) : m ∈ executions ops :=
  mem_filterMap.mpr ⟨_, h, rfl⟩

theorem Kept.act (h : Kept ops done i v) (hx : Executions C i ops) (hop : op ∈ ops) :
    Kept ops (done ++ [op]) i (v.act C i op) ∧ Remembers v (v.act C i op) := by
  cases op with
  | seedShare slot qty avg => exact ⟨h.seedShare hx.traded slot qty avg,
    .of_seen (seedShare_seen ..)⟩
  | noteSeed seed =>
    exact ⟨h.still _ (fun _ => rfl) rfl rfl (fun _ => rfl) rfl, .of_seen rfl⟩
  | clockOffset ms => exact ⟨h.still _ (fun _ => rfl) rfl rfl (fun _ => rfl) rfl, .of_seen rfl⟩
  | fill m tag delivered =>
    have hm := mem_executions hop
    exact ⟨h.fill hx hm delivered, fill_remembers h hx hm delivered⟩
  | setPosition qty avg =>
    exact ⟨h.setPosition hx.shared qty avg, .of_seen (setAccountPosition_seen ..)⟩

theorem run_append (more : List Op) :
    v.run C i (done ++ more) = (v.run C i done).run C i more := foldl_append ..

theorem kept_run (hx : Executions C i ops) (startMs : Int) (done : List Op)
    (hsub : ∀ op ∈ done, op ∈ ops) :
    Kept ops done i (({ startMs := startMs } : AccountShares).run C i done) := by
  induction done using List.reverseRecOn with
  | nil => exact kept_create ops startMs
  | append_singleton done op ih =>
    rw [run_append]
    exact ((ih fun o ho => hsub o (mem_append_left _ ho)).act hx
      (hsub op (mem_append_right _ (mem_singleton_self op)))).1

theorem remembers_run (hx : Executions C i ops) (startMs : Int) (done more : List Op)
    (hsub : ∀ op ∈ done ++ more, op ∈ ops) :
    Remembers (({ startMs := startMs } : AccountShares).run C i done)
      (({ startMs := startMs } : AccountShares).run C i (done ++ more)) := by
  induction more using List.reverseRecOn with
  | nil =>
    rw [append_nil]
    exact .of_seen rfl
  | append_singleton more op ih =>
    rw [← append_assoc] at hsub ⊢
    have hbefore : ∀ o ∈ done ++ more, o ∈ ops := fun o ho => hsub o (mem_append_left _ ho)
    rw [@run_append _ _ _ (done ++ more)]
    exact (ih hbefore).trans ((kept_run hx startMs _ hbefore).act hx
      (hsub op (mem_append_right _ (mem_singleton_self op)))).2

theorem seeded_nobody (ops : List Op) : seeded ops 0 = 0 := by
  unfold seeded
  refine sum_eq_zero fun d hd => ?_
  obtain ⟨op, -, rfl⟩ := mem_map.mp hd
  unfold Op.seeds
  split
  · exact if_neg (Fin.succ_ne_zero _).symm
  · rfl

/-- A shared instrument's shares and its unattributed part add up to what the account explains of
its position; an execution moves the position once at most, and is in the part its tag says. -/
theorem shares_add_up (hx : Executions C i ops) (startMs : Int) :
    let v₀ : AccountShares := { startMs := startMs }
    let v := v₀.run C i ops
    v.explained i = ∑ s, v.share i s + v.unattributed i ∧
      v.unexplained i = v.position i - v.explained i ∧
      ((∀ qty avg, .setPosition qty avg ∉ ops) → v.unexplained i = 0) ∧
      (∀ s, v.share i s = seeded ops s.succ + v.counted ops s.succ) ∧
      v.unattributed i = v.counted ops 0 ∧
      (∀ pre m tag given mid m' tag' given' post,
        ops = pre ++ .fill m tag given :: (mid ++ .fill m' tag' given' :: post) →
        execKey m = execKey m' →
        (v₀.run C i (pre ++ [.fill m tag given])).position i ≠ (v₀.run C i pre).position i →
        (v₀.run C i (pre ++ .fill m tag given :: (mid ++ [.fill m' tag' given']))).position i =
          (v₀.run C i (pre ++ .fill m tag given :: mid)).position i) ∧
      (∀ pre post k t, ops = pre ++ post → (v₀.run C i pre).book.seen.find k = some t →
        ∃ t', v.book.seen.find k = some t' ∧ (t ≠ 0 → t' = t)) := by
  intro v₀ v
  have h := kept_run hx startMs ops fun _ ho => ho
  refine ⟨?_, h.unexplained, h.unmoved, fun s => ?_, ?_, ?_, ?_⟩
  · rw [h.explained, Fin.sum_univ_succ, add_comm]
    exact congrArg (· + v.unattributed i) (Finset.sum_congr rfl fun s _ => part_succ s)
  · rw [← h.part, part_succ]
  · have hpart := h.part 0
    rw [seeded_nobody, zero_add] at hpart
    exact hpart
  · intro pre m tag given mid m' tag' given' post heq hkey hmoved
    have hm : .fill m tag given ∈ ops := by
      rw [heq]
      simp
    have hm' : .fill m' tag' given' ∈ ops := by
      rw [heq]
      simp
    have hsub : ∀ op ∈ pre ++ [.fill m tag given] ++ mid, op ∈ ops := fun op hop => by
      rw [append_assoc, singleton_append] at hop
      rw [heq, ← cons_append, ← append_assoc]
      exact mem_append_left _ hop
    have hpre := kept_run hx startMs pre fun op hop =>
      hsub op (mem_append_left _ (mem_append_left _ hop))
    have hmid := kept_run hx startMs _ hsub
    rw [append_assoc, singleton_append] at hmid
    rw [run_append] at hmoved
    obtain ⟨-, hin⟩ := fill_position hpre hx (mem_executions hm) given hmoved
    obtain ⟨t', hstill, -⟩ := remembers_run hx startMs (pre ++ [.fill m tag given]) mid hsub
      (execKey m) tag (by rw [run_append]; exact hin)
    rw [append_cons, ← append_assoc, run_append, ← append_cons]
    by_contra hagain
    obtain ⟨hnone, -⟩ := fill_position hmid hx (mem_executions hm') given' hagain
    rw [← hkey] at hnone
    rw [append_assoc, singleton_append] at hstill
    exact Option.some_ne_none t' (hstill.symm.trans hnone)
  · intro pre post k t heq ht
    subst heq
    exact remembers_run hx startMs pre post (fun _ ho => ho) k t ht

def bought : OrderFillMsg where
  hdr := { instrument := ⟨0⟩ }
  clOrdId := .invalid
  execId := ⟨[1], by decide⟩
  price := 100
  qty := 7
  fee := 2
  feeAsset := .base

/-- Two copies of an execution: the first reaches nobody, the second the first slot. -/
def twoCopies : List Op :=
  [.seedShare ⟨0, by decide⟩ 5 90, .fill bought 0 false, .fill bought 1 true, .setPosition 11 95]

theorem shares_add_up_twoCopies :
    let C : GatewayConfig := { insts := ⟨1, by decide, fun _ => {}⟩, shared := fun _ => true }
    let v := ({ startMs := 0 } : AccountShares).run C 0 twoCopies
    v.explained 0 = ∑ s, v.share 0 s + v.unattributed 0 ∧ v.share 0 ⟨0, by decide⟩ = 10 ∧
      v.unattributed 0 = 0 ∧ v.unexplained 0 = 1 := by
  intro C v
  have hone : ∀ m ∈ executions twoCopies, m = bought := by decide
  have hx : Executions C 0 twoCopies := ⟨rfl, by decide, by decide, by decide, by decide,
    fun m hm m' hm' _ => by
      rw [hone m hm, hone m' hm']
      exact ⟨rfl, rfl, rfl, rfl, rfl⟩, by decide⟩
  exact ⟨(shares_add_up hx 0).1, by decide +kernel, by decide +kernel, by decide +kernel⟩

end AccountShares

end FastMM
