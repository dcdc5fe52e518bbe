/-
  Core/QueueShares.lean --- a print is shared out among the resting orders, and no more of it.

  Source: `on_trade`, `on_l3_execute` and `on_cross` of `include/fastmm/core/queue_model.hpp`.

  The three differ in who takes part, in what the order of priority is and in what a turn gives;
  `Rules` says what they have in common.
-/
import FastMM.Core.QueueFills
set_option autoImplicit false

namespace FastMM.QueuePositionModel

open Foundation List

variable {σ β : Type} {q : QueuePositionModel}
variable {q' : QueuePositionModel}

/-! ## The orders of an instrument -/

theorem mem_onInst {inst : InstrumentId} {h : Nat} :
    h ∈ q.onInst inst ↔ h ∈ q.byInst.forEach (BucketBits.bucket 256 inst.value) ∧
      ∃ o, q.pool.slots h = some o ∧ o.instrument = inst := by
  unfold onInst
  rw [mem_filter]
  cases q.pool.slots h with
  | none => simp
  | some o => simp

theorem onInst_nodup (inst : InstrumentId) : (q.onInst inst).Nodup :=
  ((BucketBits.forEach_sorted q.byInst _).imp ne_of_lt).filter _

theorem get_of_slot {h : Nat} {o : QueuedOrder} (hs : q.pool.slots h = some o) : q.get h = o := by
  unfold get
  rw [hs]
  rfl

theorem slots_updateAll (g : QueuedOrder → QueuedOrder) {hs : List Nat} (hnd : hs.Nodup)
    (hlive : ∀ h ∈ hs, ∃ o, q.pool.slots h = some o) (k : Nat) :
    (hs.foldl (fun q h => q.put h (g (q.get h))) q).pool.slots k =
      if k ∈ hs then (q.pool.slots k).map g else q.pool.slots k := by
  induction hs generalizing q with
  | nil => rfl
  | cons h hs ih =>
    obtain ⟨hfresh, hnd'⟩ := nodup_cons.mp hnd
    obtain ⟨o, ho⟩ := hlive h mem_cons_self
    have hput : ∀ j, (q.put h (g (q.get h))).pool.slots j =
        if j = h then some (g o) else q.pool.slots j := by
      intro j
      rw [slots_put ho, get_of_slot ho]
    rw [foldl_cons, ih hnd']
    · by_cases hk : k = h
      · subst hk
        rw [if_neg hfresh, if_pos mem_cons_self, hput, if_pos rfl, ho]
        rfl
      · rw [hput, if_neg hk]
        simp only [mem_cons, hk, false_or]
    · intro j hj
      have hne : j ≠ h := fun heq => hfresh (heq ▸ hj)
      rw [hput, if_neg hne]
      exact hlive j (mem_cons_of_mem h hj)

/-- A write over the orders of an instrument. -/
theorem slots_updateEach (inst : InstrumentId) (g : QueuedOrder → QueuedOrder) (k : Nat) :
    (q.updateEach inst g).pool.slots k =
      if k ∈ q.onInst inst then (q.pool.slots k).map g else q.pool.slots k :=
  slots_updateAll g (onInst_nodup inst) (fun _ hh => (mem_onInst.mp hh).2.imp fun _ ho => ho.1) k

/-! ## Resting orders -/

theorem resting_create (conservatismBps : Int) : Resting (create conservatismBps) :=
  ⟨fun h o ho => absurd ho (by simp [create]), fun h o ho => absurd ho (by simp [create]),
    fun h o ho => absurd ho (by simp [create])⟩

/-- An order is among those of its instrument when the instrument's bit is set for its slot. -/
theorem mem_onInst_self {h : Nat} {o : QueuedOrder} (ho : q.pool.slots h = some o) :
    h ∈ q.onInst o.instrument ↔
      q.byInst.bits (BucketBits.bucket 256 o.instrument.value) h = true := by
  have hlt : h < kMaxQueuedOrders := Pool.lt_of_live ho
  rw [mem_onInst, BucketBits.mem_forEach]
  refine ⟨fun hin => hin.1.2, fun hbit => ⟨⟨?_, hbit⟩, o, ho, rfl⟩⟩
  unfold kMaxQueuedOrders at hlt ⊢
  omega

/-- The slots are `q`'s but for the one of `o`, and the bits of the other slots stand. -/
theorem Resting.of_one (hq : Resting q) {h : Nat} {o : QueuedOrder}
    (hcum : 0 ≤ o.cumQty ∧ o.cumQty ≤ o.qty) (hahead : 0 ≤ o.ahead)
    (hslots : ∀ k, q'.pool.slots k = if k = h then some o else q.pool.slots k)
    (hlisted : q'.byInst.bits (BucketBits.bucket 256 o.instrument.value) h = true)
    (hothers : ∀ b k, k ≠ h → q.byInst.bits b k = true → q'.byInst.bits b k = true) :
    Resting q' := by
  have hcase : ∀ k o', q'.pool.slots k = some o' →
      (k = h ∧ o' = o) ∨ (k ≠ h ∧ q.pool.slots k = some o') := by
    intro k o' ho'
    rw [hslots] at ho'
    split_ifs at ho' with hk
    · exact Or.inl ⟨hk, (Option.some.inj ho').symm⟩
    · exact Or.inr ⟨hk, ho'⟩
  refine ⟨fun k o' ho' => ?_, fun k o' ho' => ?_, fun k o' ho' => ?_⟩
  · rcases hcase k o' ho' with ⟨-, rfl⟩ | ⟨-, hold⟩
    · exact hcum
    · exact hq.cum k o' hold
  · rcases hcase k o' ho' with ⟨-, rfl⟩ | ⟨-, hold⟩
    · exact hahead
    · exact hq.ahead k o' hold
  · rw [mem_onInst_self ho']
    rcases hcase k o' ho' with ⟨rfl, rfl⟩ | ⟨hk, hold⟩
    · exact hlisted
    · exact hothers _ k hk ((mem_onInst_self hold).mp (hq.listed k o' hold))

theorem Resting.place (hq : Resting q) {id : ClientOrderId} {orderId : Nat} {inst : InstrumentId}
    {side : Side} {px : Price} {qty levelQty : Qty} {placed view : Timestamp} {h : Nat}
    (hqty : 0 ≤ qty) (hlevel : 0 ≤ levelQty)
    (hplace : q.place id orderId inst side px qty levelQty placed view = some (h, q')) :
    Resting q' := by
  unfold QueuePositionModel.place at hplace
  by_cases hknown : (q.byId id).isSome = true
  · simp [if_pos hknown] at hplace
  rw [if_neg hknown] at hplace
  cases halloc : q.pool.allocate with
  | none =>
    simp [halloc] at hplace
  | some r =>
    rw [halloc] at hplace
    obtain ⟨rfl, rfl⟩ := Prod.mk.inj (Option.some.inj hplace)
    obtain ⟨-, -, hslots⟩ := Pool.allocate_spec halloc
    let o : QueuedOrder :=
      { clOrdId := id
        orderId := orderId
        price := px
        qty := qty
        ahead := levelQty
        placed := placed
        view := view
        instrument := inst
        side := side }
    refine @Resting.of_one q _ hq r.1 o ⟨le_refl _, hqty⟩ hlevel (fun k => ?_) ?_
      fun b k hk hbit => ?_
    · rw [Pool.slots_set (by rw [hslots, if_pos rfl])]
      split_ifs with hk
      · rfl
      · rw [hslots, if_neg hk]
    · exact if_pos ⟨rfl, rfl⟩
    · exact (if_neg fun hboth => hk hboth.2).trans hbit

theorem Resting.put (hq : Resting q) {h : Nat} {o o' : QueuedOrder}
    (hs : q.pool.slots h = some o) (hinst : o'.instrument = o.instrument)
    (hcum : 0 ≤ o'.cumQty ∧ o'.cumQty ≤ o'.qty) (hahead : 0 ≤ o'.ahead) : Resting (q.put h o') := by
  refine hq.of_one hcum hahead (slots_put hs) ?_ fun _ _ _ hbit => hbit
  rw [hinst]
  exact (mem_onInst_self hs).mp (hq.listed h o hs)

/-! ## What a print keeps -/

/-- Every order that still rests is an order of before, further on at most. -/
def Kept (q q' : QueuePositionModel) : Prop :=
  ∀ k o', q'.pool.slots k = some o' → ∃ o, q.pool.slots k = some o ∧ Onward o o'

/-- Who is filled has no order prior to it that still wants something: one that was placed by then
had nothing left, or got all it had left before. -/
def InTurn (q : QueuePositionModel) (inst : InstrumentId) (ts : Timestamp)
    (prior : QueuedOrder → QueuedOrder → Prop) (log : List (Nat × Qty)) : Prop :=
  ∀ before h x after, log = before ++ (h, x) :: after →
    ∃ b, q.pool.slots h = some b ∧ ∀ k a, q.pool.slots k = some a → a.instrument = inst →
      a.placed ≤ ts → prior a b → a.leaves = 0 ∨ (k, a.leaves) ∈ before

/-- What was filled altogether. -/
def filled (log : List (Nat × Qty)) : Qty := (log.map Prod.snd).sum

/-- What was filled of one side's orders. -/
def filledOn (q : QueuePositionModel) (side : Side) (log : List (Nat × Qty)) : Qty :=
  filled (log.filter fun p => decide ((q.get p.1).side = side))

section

variable {h : Nat} {o : QueuedOrder} (hq : Resting q) (hs : q.pool.slots h = some o)
include hq hs

theorem Resting.onward_self : Onward o o :=
  ⟨rfl, ⟨le_refl _, (hq.cum h o hs).2⟩, ⟨hq.ahead h o hs, le_refl _⟩⟩

theorem Resting.leaves_nonneg : 0 ≤ o.leaves :=
  sub_nonneg.mpr (hq.cum h o hs).2

end

/-- An order of the instrument that takes part. -/
structure Taking (q : QueuePositionModel) (inst : InstrumentId) (takes : QueuedOrder → Bool)
    (h : Nat) (o : QueuedOrder) : Prop where
  slot : q.pool.slots h = some o
  instrument : o.instrument = inst
  takes : takes o = true

/-- What a print's loop keeps to: `takes` says who takes part, `g` what is written over the orders
first, and an order that got less than it wanted bars those behind it. -/
structure Rules (q : QueuePositionModel) (inst : InstrumentId) (ts : Timestamp)
    (takes : QueuedOrder → Bool) (g : QueuedOrder → QueuedOrder)
    (turn : QueuedOrder → β → QueuedOrder × Qty × β) (good : β → Prop)
    (bars : QueuedOrder → β → Prop) (prior : QueuedOrder → QueuedOrder → Prop) : Prop where
  writes : ∀ h o, q.pool.slots h = some o → Onward o (g o)
  leaves : ∀ o, takes o = true → g o = o
  keeps : ∀ h o, Taking q inst takes h o → ∀ acc, good acc →
    good (turn o acc).2.2 ∧ Onward o (settled (turn o acc))
  ends : ∀ h o, Taking q inst takes h o → ∀ acc, good acc →
    o.leaves = 0 ∨ (0 < (turn o acc).2.1 ∧ (turn o acc).2.1 = o.leaves) ∨
      bars o (turn o acc).2.2
  stays : ∀ h o, Taking q inst takes h o → ∀ a acc, good acc → bars a acc →
    bars a (turn o acc).2.2
  blocks : ∀ h o, Taking q inst takes h o → ∀ a acc, good acc → prior a o →
    bars a acc → ¬ 0 < (turn o acc).2.1
  covers : ∀ a o, takes o = true → a.placed ≤ ts → prior a o → takes a = true
  irrefl : ∀ o, ¬ prior o o

section Round

variable {f : OnFill σ} {inst : InstrumentId} {ts : Timestamp} {takes : QueuedOrder → Bool}
  {g : QueuedOrder → QueuedOrder} {turn : QueuedOrder → β → QueuedOrder × Qty × β}
  {good : β → Prop} {bars : QueuedOrder → β → Prop} {prior : QueuedOrder → QueuedOrder → Prop}
  {hs : List Nat} {acc : β}

/-- The slots that take part. -/
def takers (q : QueuePositionModel) (inst : InstrumentId) (takes : QueuedOrder → Bool) : List Nat :=
  (q.onInst inst).filter fun h => takes (q.get h)

theorem mem_takers {h : Nat} :
    h ∈ q.takers inst takes ↔ h ∈ q.onInst inst ∧ takes (q.get h) = true := mem_filter

theorem taking_of_mem {h : Nat} (hh : h ∈ q.takers inst takes) :
    Taking q inst takes h (q.get h) := by
  obtain ⟨hon, htakes⟩ := mem_takers.mp hh
  obtain ⟨o, ho, hinst⟩ := (mem_onInst.mp hon).2
  rw [get_of_slot ho] at htakes ⊢
  exact ⟨ho, hinst, htakes⟩

theorem taking_of_pair (hperm : hs.Perm (q.takers inst takes)) :
    ∀ p ∈ hs.map fun h => (h, q.get h), Taking q inst takes p.1 p.2 := by
  intro p hp
  obtain ⟨h, hh, rfl⟩ := mem_map.mp hp
  exact taking_of_mem (hperm.mem_iff.mp hh)

/-- The write over the instrument's orders leaves those that take part. -/
theorem slots_taker (hleaves : ∀ o, takes o = true → g o = o) {h : Nat}
    (hh : h ∈ q.takers inst takes) : (q.updateEach inst g).pool.slots h = some (q.get h) := by
  have htaking := taking_of_mem hh
  rw [slots_updateEach, if_pos (mem_takers.mp hh).1, htaking.slot]
  exact congrArg some (hleaves _ htaking.takes)

/-- A sort that follows a key keeps to an order of priority that the key follows. -/
theorem sorted_takers {κ : Type} [LinearOrder κ] (key : Nat → κ) {sooner : Nat → Nat → Bool}
    (hsooner : ∀ h k, sooner h k = true ↔ key h < key k) (hleaves : ∀ o, takes o = true → g o = o)
    (hkey : ∀ h k, takes ((q.updateEach inst g).get h) = true →
      prior ((q.updateEach inst g).get k) ((q.updateEach inst g).get h) → key k < key h) :
    ((q.takers inst takes).mergeSort fun h k => !sooner k h).Pairwise fun h k =>
      ¬ prior ((q.updateEach inst g).get k) ((q.updateEach inst g).get h) := by
  refine (pairwise_mergeSort_key key hsooner _).imp_of_mem fun {h k} hh _ hnot hprior => ?_
  have htaker := (mergeSort_perm _ _).mem_iff.mp hh
  refine hnot (hkey h k ?_ hprior)
  rw [get_of_slot (slots_taker hleaves htaker)]
  exact (taking_of_mem htaker).takes

section

variable (hf : Owner f) (hq : Resting q) (rules : Rules q inst ts takes g turn good bars prior)
variable (hperm : hs.Perm (q.takers inst takes))
include hf hq rules hperm

/-- A print's loop: the orders go on, and its log is a sharing out among those that take part. -/
theorem round_spec (hacc : good acc) (s : σ) :
    (fillEach (logged f) turn hs acc (q.updateEach inst g, (s, []))).2.2 =
        (share (takeOf turn) (hs.map fun h => (h, q.get h)) acc).map (fun p => (p.1.1, p.2)) ∧
      Kept q (fillEach (logged f) turn hs acc (q.updateEach inst g, (s, []))).1 := by
  have hnd : hs.Nodup := hperm.nodup_iff.mpr ((onInst_nodup inst).filter _)
  have hslot : ∀ h ∈ hs, (q.updateEach inst g).pool.slots h = some (q.get h) := fun h hh =>
    slots_taker rules.leaves (hperm.mem_iff.mp hh)
  have hkeep : ∀ h ∈ hs, ∀ acc, good acc → good (turn (q.get h) acc).2.2 ∧
      Onward (q.get h) (settled (turn (q.get h) acc)) := fun h hh =>
    rules.keeps h _ (taking_of_mem (hperm.mem_iff.mp hh))
  obtain ⟨hlog, hout, hin⟩ := @fillEach_spec σ β f turn good hf hs hnd q.get
    (fun h hh acc hacc => (hkeep h hh acc hacc).1) acc hacc (q.updateEach inst g, (s, [])) hslot
  refine ⟨hlog, fun k o' ho' => ?_⟩
  by_cases hk : k ∈ hs
  · have hlive := (taking_of_mem (hperm.mem_iff.mp hk)).slot
    rcases hin k hk with hnone | ⟨acc', hacc', hsome⟩
    · exact absurd (hnone.symm.trans ho') (by simp)
    · rw [hsome] at ho'
      exact ⟨_, hlive, Option.some.inj ho' ▸ (hkeep k hk acc' hacc').2⟩
  · rw [hout k hk, slots_updateEach] at ho'
    split_ifs at ho' with hon
    · obtain ⟨o, ho, hgo⟩ := Option.map_eq_some_iff.mp ho'
      exact ⟨o, ho, hgo ▸ rules.writes k o ho⟩
    · exact ⟨o', ho', hq.onward_self ho'⟩

/-- Nobody is filled out of turn. -/
theorem round_inTurn
    (hsorted : hs.Pairwise fun h k =>
      ¬ prior ((q.updateEach inst g).get k) ((q.updateEach inst g).get h))
    (hacc : good acc) (s : σ) :
    InTurn q inst ts prior
      (fillEach (logged f) turn hs acc (q.updateEach inst g, (s, []))).2.2 := by
  have hspec := (round_spec hf hq rules hperm hacc s).1
  have hmem := taking_of_pair hperm
  intro before h x after hlog
  rw [hspec] at hlog
  obtain ⟨before', rest, hshare, hbefore, hrest⟩ := map_eq_append_iff.mp hlog
  obtain ⟨p, after', rfl, hp, -⟩ := map_eq_cons_iff.mp hrest
  have hpin : p.1 ∈ hs.map fun h => (h, q.get h) :=
    (mem_share (hshare ▸ mem_append_right before' mem_cons_self)).1
  have hb := hmem _ hpin
  have hph : p.1.1 = h := congrArg Prod.fst hp
  refine ⟨p.1.2, hph ▸ hb.slot, fun k a ha hinst hplaced hprior => ?_⟩
  have htakes : takes a = true := rules.covers a p.1.2 hb.takes hplaced hprior
  have hget : q.get k = a := get_of_slot ha
  have hkin : k ∈ q.takers inst takes :=
    mem_takers.mpr ⟨hinst ▸ hq.listed k a ha, hget.symm ▸ htakes⟩
  have hain : (k, a) ∈ hs.map fun h => (h, q.get h) :=
    mem_map.mpr ⟨k, hperm.mem_iff.mpr hkin, by rw [hget]⟩
  have hupdated : ∀ j ∈ hs, (q.updateEach inst g).get j = q.get j := fun j hj =>
    get_of_slot (slots_taker rules.leaves (hperm.mem_iff.mp hj))
  have hsorted' : (hs.map fun h => (h, q.get h)).Pairwise fun a b => ¬ prior b.2 a.2 := by
    rw [pairwise_map]
    refine hsorted.imp_of_mem fun {h k} hh hk hnot => ?_
    rwa [hupdated h hh, hupdated k hk] at hnot
  have hin := @share_priority _ _ (takeOf turn) good _ _ (fun p => p.2.leaves)
    (fun p => bars p.2) (fun a b => prior a.2 b.2) (fun a => rules.irrefl a.2) hsorted'
    (fun b hb acc hacc => (rules.keeps _ _ (hmem b hb) acc hacc).1)
    (fun b hb => rules.ends _ _ (hmem b hb)) (fun a b hb => rules.stays _ _ (hmem b hb) a.2)
    (fun a b hb => rules.blocks _ _ (hmem b hb) a.2) hacc _ _ _ _ hshare (k, a)
    hain hprior
  refine hin.imp id fun hbefore' => ?_
  rw [← hbefore]
  exact mem_map.mpr ⟨_, hbefore', rfl⟩

/-- The orders that count are filled by no more than the budget they draw on. -/
theorem round_filled (hacc : good acc) (s : σ) (counts : QueuedOrder → Bool)
    (budget : β → Int) (hnonneg : ∀ acc, good acc → 0 ≤ budget acc)
    (hdraw : ∀ h o, Taking q inst takes h o → ∀ acc, good acc →
      budget (turn o acc).2.2 +
        (if counts o = true ∧ 0 < (turn o acc).2.1 then (turn o acc).2.1 else 0) ≤ budget acc) :
    filled ((fillEach (logged f) turn hs acc (q.updateEach inst g, (s, []))).2.2.filter
      fun p => counts (q.get p.1)) ≤ budget acc := by
  have hmem := taking_of_pair hperm
  have hsum := @sum_share_le _ _ (takeOf turn) good (hs.map fun h => (h, q.get h)) acc
    (fun p => counts p.2) budget
    (fun b hb acc hacc => (rules.keeps _ _ (hmem b hb) acc hacc).1) hnonneg
    (fun b hb => hdraw _ _ (hmem b hb)) hacc
  rw [(round_spec hf hq rules hperm hacc s).1, filter_map]
  refine le_of_eq_of_le ?_ hsum
  unfold filled
  rw [map_map]
  congr 2
  refine filter_congr fun p hp => ?_
  show counts (q.get p.1.1) = counts p.1.2
  rw [get_of_slot (hmem _ (mem_share hp).1).slot]

/-- All the orders together are filled by no more than the budget they draw on. -/
theorem round_filled_all (hacc : good acc) (s : σ)
    (budget : β → Int) (hnonneg : ∀ acc, good acc → 0 ≤ budget acc)
    (hdraw : ∀ h o, Taking q inst takes h o → ∀ acc, good acc →
      budget (turn o acc).2.2 + (if 0 < (turn o acc).2.1 then (turn o acc).2.1 else 0) ≤
        budget acc) :
    filled (fillEach (logged f) turn hs acc (q.updateEach inst g, (s, []))).2.2 ≤ budget acc := by
  have hall := round_filled hf hq rules hperm hacc s (fun _ => true) budget hnonneg
    (fun h o ht acc hacc => by simpa using hdraw h o ht acc hacc)
  rwa [filter_true] at hall

end

end Round

end FastMM.QueuePositionModel
