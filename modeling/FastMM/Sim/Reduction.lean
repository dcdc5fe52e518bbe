/-
  Sim/Reduction.lean --- the cancel of an account's newest quantity at a price.

  Each time through the loop the newest order of the account at the price goes, or gives up the
  rest of the quantity where it stands.
-/
import FastMM.Sim.Amendment
set_option autoImplicit false

namespace FastMM.Sim

open Foundation Auction Function List

variable {e : MatchingEngine} {L : Ladder} {i : Nat} {s : Side} {p px : Price} {h : Nat}
  {o : SimOrder} {A B : List Group} {x y z : List Nat} {a : Auction} {account : AccountId}
  {qty : Qty}
variable {u l : List RestingOrder}

/-! ## The auction's newest orders -/

/-- The account's order at the price. -/
abbrev RestingOrder.Of (w : RestingOrder) (account : AccountId) (px : Price) : Prop :=
  w.party.account = account ∧ w.price = px

theorem reduceNewest_skip (hu : ∀ w ∈ u, ¬ w.Of account px) : reduceNewest account px qty (u ++ l) =
      u ++ reduceNewest account px qty l := by
  induction u with
  | nil => rfl
  | cons w u ih =>
    rw [cons_append, reduceNewest, if_neg (hu w mem_cons_self),
      ih fun w hw => hu w (mem_cons_of_mem _ hw)]
    rfl

theorem reduceNewest_absent {l : List RestingOrder} (hl : ∀ w ∈ l, ¬ w.Of account px) :
    reduceNewest account px qty l = l := by
  have hskip : reduceNewest account px qty (l ++ []) =
      l ++ reduceNewest account px qty [] := reduceNewest_skip hl
  rw [append_nil] at hskip
  exact hskip.trans (append_nil l)

theorem reduceNewest_nothing (hqty : ¬ 0 < qty) (l : List RestingOrder) :
    reduceNewest account px qty l = l := by
  induction l with
  | nil => rfl
  | cons w l ih =>
    rw [reduceNewest, if_pos hqty, ih]
    split <;> rfl

/-- The newest order at the price, behind others. -/
theorem reduceNewest_first {w : RestingOrder}
    (hu : ∀ w ∈ u, ¬ w.Of account px) (hw : w.Of account px) (hqty : 0 < qty) :
    reduceNewest account px qty (u ++ w :: l) =
      if w.leaves ≤ qty then reduceNewest account px (qty - w.leaves) (u ++ l)
      else u ++ { w with leaves := w.leaves - qty } :: l := by
  rw [reduceNewest_skip hu, reduceNewest, if_pos hw, if_neg (not_not.mpr hqty)]
  split
  · rw [reduceNewest_skip hu]
  · rfl

/-! ## The engine's newest order -/

/-- The newest order of an account on a queue, and those behind it. -/
theorem newestOf_spec (account : AccountId) (hchain : Links.Chain e.links none (x ++ z)) {n : Nat}
    (hn : x.length ≤ n) : match e.newestOf account n x.getLast? with
    | none => ∀ k ∈ x, ((e.pool.slots k).getD default).account ≠ account
    | some h => ∃ u v, x = u ++ h :: v ∧ ((e.pool.slots h).getD default).account = account ∧
        ∀ k ∈ v, ((e.pool.slots k).getD default).account ≠ account := by
  induction x using List.reverseRecOn generalizing z n with
  | nil =>
    have hnone : e.newestOf account n ([] : List Nat).getLast? = none := by
      cases n <;> rfl
    rw [hnone]
    exact fun k hk => absurd hk not_mem_nil
  | append_singleton u h ih =>
    rw [length_append, length_singleton] at hn
    obtain ⟨m, rfl⟩ : ∃ m, n = m + 1 := ⟨n - 1, by omega⟩
    rw [getLast?_concat, MatchingEngine.newestOf]
    rw [append_assoc] at hchain
    by_cases hacct : ((e.pool.slots h).getD default).account = account
    · rw [if_neg (not_not.mpr hacct)]
      exact ⟨u, [], rfl, hacct, fun k hk => absurd hk not_mem_nil⟩
    rw [if_pos hacct]
    have hprev := hchain.prev_eq
    rw [Option.or_none] at hprev
    rw [hprev]
    have hrest := ih hchain (Nat.le_of_succ_le_succ hn)
    split at hrest
    · exact forall_mem_append.mpr ⟨hrest, forall_mem_singleton.mpr hacct⟩
    obtain ⟨u', v, rfl, hown, hothers⟩ := hrest
    refine ⟨u', v ++ [h], by simp, hown, fun k hk => ?_⟩
    rcases mem_append.mp hk with hv | hh
    · exact hothers k hv
    · rw [mem_singleton.mp hh]
      exact hacct

/-! ## One time through the loop -/

theorem setQueue_self (a : Auction) (i : Nat) (s : Side) : a.setQueue i s (a.queue i s) = a := by
  unfold setQueue
  rw [update_eq_self, update_eq_self]

theorem setQueue_setQueue (a : Auction) (i : Nat) (s : Side) (q q' : List RestingOrder) :
    (a.setQueue i s q).setQueue i s q' = a.setQueue i s q' := by
  unfold setQueue
  dsimp only
  rw [update_self, update_idem, update_idem]

theorem setQueue_queue (a : Auction) (i : Nat) (s : Side) (q : List RestingOrder) :
    (a.setQueue i s q).queue i s = q := by
  unfold setQueue
  dsimp only
  rw [update_self, update_self]

/-- The auction's reduction of a side. -/
def Auction.reduced (a : Auction) (account : AccountId) (i : Nat) (s : Side) (px : Price)
    (qty : Qty) : Auction :=
  a.setQueue i s (reduceNewest account px qty (a.queue i s).reverse).reverse

theorem reduced_unchanged
    (h : reduceNewest account px qty (a.queue i s).reverse = (a.queue i s).reverse) :
    a.reduced account i s px qty = a := by
  unfold reduced
  rw [h, reverse_reverse, setQueue_self]

section

variable (hst : Stands e L)
include hst

/-- A price without orders of the account. -/
theorem Shows.reduced_absent (ha : Shows e L a)
    (hnone : ∀ g ∈ L i s, g.1 = px → ∀ k ∈ g.2, ((e.pool.slots k).getD default).account ≠ account) :
    a.reduced account i s px qty = a := by
  refine reduced_unchanged (reduceNewest_absent fun w hw => ?_)
  rw [ha.queue] at hw
  obtain ⟨k, hk, rfl⟩ := mem_map.mp (mem_reverse.mp hw)
  obtain ⟨g, hg, hkg⟩ := mem_flat.mp hk
  obtain ⟨-, o, ho⟩ := hst.tiered.queues.placed i s g hg k hkg
  rw [view_eq ho.slot]
  rintro ⟨hacct, hprice⟩
  refine hnone g hg (ho.price.symm.trans hprice) k hkg ?_
  rw [ho.slot]
  exact hacct

/-- The queue behind the newest order at a price has none of the account's there. -/
theorem Shows.newest (hL : L i s = A ++ (px, x ++ h :: y) :: B)
    (hy : ∀ k ∈ y, ((e.pool.slots k).getD default).account ≠ account) :
    ∀ w ∈ ((y ++ flat A).map (OrderPool.view e.pool)).reverse, ¬ w.Of account px := by
  intro w hw
  obtain ⟨k, hk, rfl⟩ := mem_map.mp (mem_reverse.mp hw)
  rcases mem_append.mp hk with hk | hk
  · obtain ⟨-, o, ho⟩ := hst.tiered.queues.placed i s (px, x ++ h :: y) (by rw [hL]; simp) k
      (by simp [hk])
    rw [view_eq ho.slot]
    rintro ⟨hacct, -⟩
    refine hy k hk ?_
    rw [ho.slot]
    exact hacct
  · obtain ⟨g, hg, hkg⟩ := mem_flat.mp hk
    obtain ⟨-, o, ho⟩ := hst.tiered.queues.placed i s g (by rw [hL]; exact mem_append_left _ hg)
      k hkg
    rw [view_eq ho.slot]
    rintro ⟨-, hprice⟩
    exact (hst.tiered.queues.prices_ne hL).1 g hg (ho.price.symm.trans hprice)

/-- A side about the newest order of the account at a price, in the auction. -/
theorem Shows.reduced_first (ha : Shows e L a)
    (hL : L i s = A ++ (px, x ++ h :: y) :: B) (ho : OrderPool.Waits e.pool h i s px o)
    (hacct : o.account = account)
    (hy : ∀ k ∈ y, ((e.pool.slots k).getD default).account ≠ account) (hqty : 0 < qty) :
    a.reduced account i s px qty =
      if o.leaves ≤ qty then
        (a.setQueue i s ((flat B ++ x).map (OrderPool.view e.pool) ++
          (y ++ flat A).map (OrderPool.view e.pool))).reduced account i s px (qty - o.leaves)
      else
        a.setQueue i s ((flat B ++ x).map (OrderPool.view e.pool) ++
          { OrderPool.view e.pool h with leaves := o.leaves - qty } ::
            (y ++ flat A).map (OrderPool.view e.pool)) := by
  have hnewest := Shows.newest hst hL hy
  have hview := view_eq ho.slot
  have hof : (OrderPool.view e.pool h).Of account px := by
    rw [hview]
    exact ⟨hacct, ho.price⟩
  have hleaves : (OrderPool.view e.pool h).leaves = o.leaves := by rw [hview]
  unfold reduced
  rw [ha.queue, hL, flat_about, map_about, reverse_append, reverse_cons,
    append_assoc, singleton_append, reduceNewest_first hnewest hof hqty, hleaves]
  split
  · rw [setQueue_setQueue, setQueue_queue, reverse_append]
  · rw [reverse_append, reverse_cons, reverse_reverse, reverse_reverse,
      append_assoc, singleton_append]

/-- The newest order gives up part of its quantity. -/
theorem Stands.reducePart {id : InstrumentId}
    (hL : L id.value s = A ++ (px, x ++ h :: y) :: B)
    (ho : OrderPool.Waits e.pool h id.value s px o) (hacct : o.account = account)
    (hy : ∀ k ∈ y, ((e.pool.slots k).getD default).account ≠ account) (hqty : 0 < qty)
    (hpart : ¬ o.leaves ≤ qty) {l : PriceLevel}
    (hl : l = { OrderPool.levelOf e.pool (px, x ++ h :: y) with
      qty := (OrderPool.levelOf e.pool (px, x ++ h :: y)).qty - qty }) {e₁ : MatchingEngine}
    (he₁ : e₁ = { e with pool := e.pool.set h { o with qty := o.qty - qty } }) :
    Steps e L ((e₁.setBook id ((e₁.book id).setLevel s A.length l)).bookChanged id s l.price l.qty)
      (fun a => a.reduced account id.value s px qty) True := by
  have hq := hst.tiered.queues
  have hleaves : ({ o with qty := o.qty - qty } : SimOrder).leaves = o.leaves - qty :=
    sub_right_comm o.qty qty o.cumQty
  have hpos : 0 < ({ o with qty := o.qty - qty } : SimOrder).leaves := by
    rw [hleaves]
    exact sub_pos_of_lt (not_le.mp hpart)
  have hcount : l.count ≠ 0 := by
    rw [hl]
    show (x ++ h :: y).length ≠ 0
    simp
  have hkeys : ∀ k h', e₁.byKey k = some h' ↔
      ∃ o₁, (e.pool.set h { o with qty := o.qty - qty }).slots h' = some o₁ ∧
        orderKey o₁.account o₁.clOrdId = k := by
    intro k h'
    rw [he₁]
    exact hq.keys_set ho.slot { o with qty := o.qty - qty } rfl k h'
  obtain ⟨ht, hsame, calls, hrep, hfills⟩ := hst.tiered.rewriteLevel e₁
    { o with qty := o.qty - qty } hL ho.slot rfl rfl rfl hpos hleaves (by rw [he₁]) (by rw [he₁])
    (by rw [he₁]) hkeys rfl hl
  have hsettle : e₁.settleLevel id s A.length l =
      (e₁.setBook id ((e₁.book id).setLevel s A.length l)).bookChanged id s l.price l.qty :=
    if_neg hcount
  rw [hsettle] at ht hsame hrep
  generalize (e₁.setBook id ((e₁.book id).setLevel s A.length l)).bookChanged id s l.price l.qty =
    e₂ at ht hsame hrep
  have hslots := Pool.slots_set (o := { o with qty := o.qty - qty }) ho.slot
  have hpool : e₂.pool = e.pool.set h { o with qty := o.qty - qty } := by rw [hsame.pool, he₁]
  have hquiet : Reports e [] e₁ := by
    rw [he₁]
    exact Reports.quiet rfl (append_nil _).symm (fun _ => rfl) rfl rfl rfl
  have hreports := hquiet.trans hrep
  have hcases : ∀ k o₁, e₂.pool.slots k = some o₁ →
      (k = h ∧ o₁ = { o with qty := o.qty - qty }) ∨ e.pool.slots k = some o₁ := by
    intro k o₁ ho₁
    rw [hpool, hslots] at ho₁
    split at ho₁
    · exact .inl ⟨‹_›, (Option.some.inj ho₁).symm⟩
    · exact .inr ho₁
  refine ⟨L, _, ⟨ht, hst.balanced.of_ledgers (by rw [hsame.ledgers, he₁]), hst.uncrossed,
    fun k o₁ ho₁ => ?_⟩, hreports, fun _ a ha => ?_⟩
  · rw [hreports.instrumentCount]
    rcases hcases k o₁ ho₁ with ⟨-, rfl⟩ | ho₁
    · exact hst.within h o ho.slot
    · exact hst.within k o₁ ho₁
  have hothers := hq.not_mem_flat hL
  obtain ⟨-, hsides⟩ := hq.not_mem_others (z := h) hL (by simp)
  have hset := ha.queue_set id.value s (L id.value s) e₂.pool
    fun i s' hne g hg k hk => by
      have hkh : k ≠ h := fun he => hsides i s' hne g hg (he ▸ hk)
      rw [hpool, hslots, if_neg hkh]
  rw [Ladder.set_eq] at hset
  show Shows _ L (a.reduced account id.value s px qty)
  have hqueue : (flat (L id.value s)).map (OrderPool.view e₂.pool) =
      (flat B ++ x).map (OrderPool.view e.pool) ++
        { OrderPool.view e.pool h with leaves := o.leaves - qty } ::
          (y ++ flat A).map (OrderPool.view e.pool) := by
    have hview : ∀ q : List Nat, (∀ k ∈ q, k ∈ (flat B ++ x) ++ (y ++ flat A)) →
        q.map (OrderPool.view e₂.pool) = q.map (OrderPool.view e.pool) := by
      intro q hq
      refine map_view_congr fun k hk => ?_
      have hkh : k ≠ h := fun he => hothers (he ▸ hq k hk)
      rw [hpool, hslots, if_neg hkh]
    have hslot : e₂.pool.slots h = some { o with qty := o.qty - qty } := by
      rw [hpool, hslots, if_pos rfl]
    rw [hL, flat_about, map_about, hview _ fun k hk => mem_append_left _ hk,
      hview _ fun k hk => mem_append_right _ hk, view_eq hslot, view_eq ho.slot, hleaves]
    rfl
  rw [ha.reduced_first hst hL ho hacct hy hqty, if_neg hpart, ← hqueue]
  refine ha.step hreports rfl rfl ?_ ?_ hset fun k o₁ ho₁ => ?_
  · rw [nil_append, hfills, append_nil]
    rfl
  · rw [hsame.nextOrderId, he₁]
    exact ha.nextOrderId
  rcases hcases k o₁ ho₁ with ⟨-, rfl⟩ | ho₁
  · obtain ⟨hreduce, htif, hid⟩ := ha.allowed h o ho.slot
    exact ⟨hreduce, htif, hid⟩
  · exact ha.allowed k o₁ ho₁

end

/-- The loop, with enough fuel for the orders at the price. -/
theorem Stands.reduceFrom (account : AccountId) (s : Side) (px : Price) (id : InstrumentId)
    (now : Timestamp) (n : Nat) (e : MatchingEngine) (L : Ladder) (qty : Qty) (hst : Stands e L)
    (hn : ∀ g ∈ L id.value s, g.1 = px → g.2.length < n) :
    Steps e L (e.reduceFrom account id s px now n qty)
      (fun a => a.reduced account id.value s px qty) True := by
  induction n generalizing e L qty with
  | zero =>
    refine ⟨L, [], hst, Reports.refl e, fun _ a ha => ?_⟩
    show Shows e L (a.reduced account id.value s px qty)
    rw [ha.reduced_absent hst fun g hg hp => absurd (hn g hg hp) (Nat.not_lt_zero _)]
    exact ha
  | succ n ih =>
    rw [MatchingEngine.reduceFrom]
    by_cases hqty : 0 < qty
    · rw [if_neg (not_not.mpr hqty)]
      obtain ⟨A, x, B, habout⟩ := exists_about (hst.tiered.queues.sorted id.value s) px
      rcases habout.split with hL | ⟨-, hL⟩
      · obtain ⟨hfind, hget⟩ := hst.tiered.find_eq (rfl : id.value = id.value) hL
        rw [hfind]
        dsimp only
        rw [hget]
        have hg : (px, x) ∈ L id.value s := by
          rw [hL]
          simp
        have hchain := hst.tiered.queues.chain id.value s (px, x) hg
        have hnewest := newestOf_spec (e := e) (x := x) (z := []) account
          (by rw [append_nil]; exact hchain) (hst.tiered.queues.length_le hg)
        rw [show (OrderPool.levelOf e.pool (px, x)).tail = x.getLast? from rfl]
        cases hfound : e.newestOf account kMaxSimOrders x.getLast? with
        | none =>
          rw [hfound] at hnewest
          refine ⟨L, [], hst, Reports.refl e, fun _ a ha => ?_⟩
          show Shows e L (a.reduced account id.value s px qty)
          rw [ha.reduced_absent hst fun g hg' hp k hk => ?_]
          · exact ha
          have hgx : g = (px, x) := (hst.tiered.queues.sorted id.value s).eq_of_key hg' hg
            (congrArg (goodness s) hp)
          rw [hgx] at hk
          exact hnewest k hk
        | some h =>
          rw [hfound] at hnewest
          obtain ⟨u, v, rfl, hacct, hothers⟩ := hnewest
          obtain ⟨-, o, ho⟩ := hst.tiered.queues.placed id.value s _ hg h (by simp)
          rw [ho.slot, Option.getD_some] at hacct
          dsimp only
          rw [ho.slot, Option.getD_some]
          split_ifs with hall
          · have hL' : L o.instrument.value o.side = A ++ (o.price, u ++ h :: v) :: B := by
              rw [ho.instrument, ho.side, hL, show o.price = px from ho.price]
            obtain ⟨calls₁, hst₁, hrep₁, -, hshows₁⟩ := hst.removeFrom ho.slot hL' .requested now
              rfl
            obtain ⟨hneA, hneB⟩ := hst.tiered.queues.prices_ne hL
            have hn₁ : ∀ g ∈ (L.set o.instrument.value o.side
                (regrouped A o.price (u ++ v) B)) id.value s, g.1 = px → g.2.length < n := by
              intro g hg' hp
              rw [ho.instrument, ho.side, Ladder.set_self, show o.price = px from ho.price] at hg'
              unfold regrouped at hg'
              split at hg'
              · rcases mem_append.mp hg' with hA | hB
                · exact absurd hp (hneA g hA)
                · exact absurd hp (hneB g hB)
              rcases mem_append.mp hg' with hA | hB
              · exact absurd hp (hneA g hA)
              rcases mem_cons.mp hB with rfl | hB
              · have hlen := hn _ hg rfl
                simp only [length_append, length_cons] at hlen ⊢
                omega
              · exact absurd hp (hneB g hB)
            obtain ⟨L₂, calls₂, hst₂, hrep₂, hshows₂⟩ := ih _ _ (qty - o.leaves) hst₁ hn₁
            refine ⟨L₂, _, hst₂, hrep₁.trans hrep₂, fun _ a ha => ?_⟩
            have hkey : e.byKey (orderKey o.account o.clOrdId) = some h :=
              (hst.tiered.queues.keys _ h).mpr ⟨o, ho.slot, rfl⟩
            have hremove := hshows₁ a o.account o.clOrdId ha (ha.allowed h o ho.slot).id hkey
            have hstep := hshows₂ trivial _ hremove
            show Shows _ L₂ (a.reduced account id.value s px qty)
            rw [ha.reduced_first hst hL ho hacct hothers hqty, if_pos hall]
            obtain ⟨hown, hu, hv⟩ := ha.about hst (ha.allowed h o ho.slot).id hkey hL
            have hqueue : a.remove o.instrument.value o.side o.account o.clOrdId =
                a.setQueue id.value s ((flat B ++ u).map (OrderPool.view e.pool) ++
                  (v ++ flat A).map (OrderPool.view e.pool)) := by
              unfold Auction.remove
              rw [ho.instrument, ho.side, ha.queue, hL, flat_about, map_about,
                filter_others hown hu hv]
            rw [← hqueue]
            exact hstep
          · exact hst.reducePart hL ho hacct hothers hqty hall rfl rfl
      · have hnone : (e.book id).find s px = none := by
          have hdata := hst.tiered.levels id.value s
          rw [hL, map_append] at hdata
          obtain ⟨hparted, hno⟩ := habout.parted e.pool
          exact find_none hdata hparted hno
        rw [hnone]
        refine ⟨L, [], hst, Reports.refl e, fun _ a ha => ?_⟩
        show Shows e L (a.reduced account id.value s px qty)
        rw [ha.reduced_absent hst fun g hg hp => ?_]
        · exact ha
        rw [hL] at hg
        rcases mem_append.mp hg with hA | hB
        · exact absurd (habout.below g hA) (by rw [hp]; exact lt_irrefl _)
        · exact absurd (habout.above g hB) (by rw [hp]; exact lt_irrefl _)
    · rw [if_pos hqty]
      refine ⟨L, [], hst, Reports.refl e, fun _ a ha => ?_⟩
      show Shows e L (a.reduced account id.value s px qty)
      rw [reduced_unchanged (reduceNewest_nothing hqty _)]
      exact ha

theorem Stands.reduceAccountQty (hst : Stands e L) (account : AccountId) (id : InstrumentId)
    (s : Side) (px : Price) (qty : Qty) (now : Timestamp) :
    Steps e L (e.reduceAccountQty account id s px qty now)
      (fun a => a.reduceAccountQty account id s px qty) True := by
  unfold MatchingEngine.reduceAccountQty
  split
  · rename_i hout
    refine ⟨L, [], hst, Reports.refl e, fun _ a ha => ?_⟩
    show Shows e L (a.reduceAccountQty account id s px qty)
    unfold Auction.reduceAccountQty
    rw [if_pos (by rw [ha.instrumentCount]; exact hout)]
    exact ha
  · rename_i hin
    obtain ⟨L', calls, hst', hrep, hshows⟩ := Stands.reduceFrom account s px id now
      (kMaxSimOrders + 1) e L qty hst
      fun g hg _ => Nat.lt_succ_of_le (hst.tiered.queues.length_le hg)
    refine ⟨L', calls, hst', hrep, fun _ a ha => ?_⟩
    show Shows _ L' (a.reduceAccountQty account id s px qty)
    unfold Auction.reduceAccountQty
    rw [if_neg (by rw [ha.instrumentCount]; exact hin)]
    exact hshows trivial a ha

end FastMM.Sim
