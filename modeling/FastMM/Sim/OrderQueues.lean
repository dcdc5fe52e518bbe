/-
  Sim/OrderQueues.lean --- the queues of the matching engine's orders.

  A ladder gives for each side of an instrument its prices, the worst first, each with the slots
  of its orders, the oldest first.  `Queues` says that links, pool and handle map are those of a
  ladder; one live order, that of the taker, may be on none of its queues.
-/
import FastMM.Foundation.GroupedQueue
import FastMM.Sim.MatchingEngine
import Mathlib.Data.List.Perm.Subperm
set_option autoImplicit false

namespace FastMM.Sim

open Foundation Function List Pool

/-- The slots of a price's orders. -/
abbrev Group : Type := Price × List Nat

abbrev Ladder : Type := Nat → Side → List Group

abbrev OrderPool : Type := Pool SimOrder kMaxSimOrders

/-- A side of an instrument rewritten. -/
def Ladder.set (L : Ladder) (i : Nat) (s : Side) (gs : List Group) : Ladder :=
  update L i (update (L i) s gs)

section Set

variable (L : Ladder) (i : Nat) (s : Side) (gs : List Group)

@[simp] theorem Ladder.set_self : L.set i s gs i s = gs := by
  simp [Ladder.set]

theorem Ladder.set_of_ne {i' : Nat} {s' : Side} (h : ¬ (i' = i ∧ s' = s)) :
    L.set i s gs i' s' = L i' s' := by
  unfold Ladder.set
  by_cases hi : i' = i
  · subst hi
    rw [update_self, update_of_ne fun hs => h ⟨rfl, hs⟩]
  · rw [update_of_ne hi]

/-- What holds of every side holds after one is rewritten. -/
theorem Ladder.forall_set {P : Nat → Side → List Group → Prop} (h : ∀ i s, P i s (L i s))
    (hgs : P i s gs) (i' : Nat) (s' : Side) : P i' s' (L.set i s gs i' s') := by
  by_cases he : i' = i ∧ s' = s
  · obtain ⟨rfl, rfl⟩ := he
    rw [Ladder.set_self]
    exact hgs
  · rw [Ladder.set_of_ne L i s gs he]
    exact h i' s'

theorem Ladder.set_set (gs' : List Group) : (L.set i s gs).set i s gs' = L.set i s gs' := by
  unfold Ladder.set
  rw [update_self, update_idem, update_idem]

theorem Ladder.set_eq : L.set i s (L i s) = L := by
  unfold Ladder.set
  rw [update_eq_self, update_eq_self]

end Set

/-! ## Orders -/

/-- The order in slot `h` waits on side `s` of instrument `i` at price `p`. -/
structure OrderPool.Waits (pool : OrderPool) (h : Nat) (i : Nat) (s : Side) (p : Price)
    (o : SimOrder) : Prop where
  slot : pool.slots h = some o
  instrument : o.instrument.value = i
  side : o.side = s
  price : o.price = p
  leaves : 0 < o.leaves

/-! ## The invariant -/

/-- Links, pool and handle map are those of the ladder, with the order of slot `out` on none of
its queues. -/
structure Queues (pool : OrderPool) (links : Links) (byKey : Nat → Option Nat) (L : Ladder)
    (out : Option Nat) : Prop where
  sorted : ∀ i s, Ascending (fun g : Group => goodness s g.1) (L i s)
  chain : ∀ i s, ∀ g ∈ L i s, Links.Chain links none g.2
  nodup : ∀ i s, ∀ g ∈ L i s, g.2.Nodup
  placed : ∀ i s, ∀ g ∈ L i s, ∀ h ∈ g.2, out ≠ some h ∧ ∃ o, OrderPool.Waits pool h i s g.1 o
  queued : ∀ h o, pool.slots h = some o → out ≠ some h → ∃ g ∈ L o.instrument.value o.side, h ∈ g.2
  keys : ∀ k h, byKey k = some h ↔ ∃ o, pool.slots h = some o ∧ orderKey o.account o.clOrdId = k

namespace Queues

variable {pool pool' : OrderPool} {links : Links} {byKey : Nat → Option Nat} {L : Ladder}
    {out : Option Nat} {i i' : Nat} {s s' : Side} {p : Price} {h : Nat}
  {o o' : SimOrder} {A B : List Group} {x y : List Nat}

/-- A slot is on one queue. -/
theorem eq_of_mem (hq : Queues pool links byKey L out) {g g' : Group} (hg : g ∈ L i s)
    (hg' : g' ∈ L i' s') (hh : h ∈ g.2) (hh' : h ∈ g'.2) : i = i' ∧ s = s' ∧ g = g' := by
  obtain ⟨-, o, ho⟩ := hq.placed i s g hg h hh
  obtain ⟨-, o', ho'⟩ := hq.placed i' s' g' hg' h hh'
  obtain rfl := Option.some.inj (ho.slot.symm.trans ho'.slot)
  obtain rfl : i = i' := ho.instrument.symm.trans ho'.instrument
  obtain rfl : s = s' := ho.side.symm.trans ho'.side
  have hp : g.1 = g'.1 := ho.price.symm.trans ho'.price
  exact ⟨rfl, rfl, (hq.sorted i s).eq_of_key hg hg' (congrArg (goodness s) hp)⟩

/-- A queue has at most as many orders as there are slots. -/
theorem length_le (hq : Queues pool links byKey L out) {g : Group} (hg : g ∈ L i s) :
    g.2.length ≤ kMaxSimOrders := by
  have hsub : g.2 ⊆ List.range kMaxSimOrders := by
    intro h hh
    obtain ⟨-, o, ho⟩ := hq.placed i s g hg h hh
    exact mem_range.mpr (lt_of_live ho.slot)
  have hle := (subperm_of_subset (hq.nodup i s g hg) hsub).length_le
  rwa [length_range] at hle

/-- Prices ascend whatever their orders. -/
theorem ascending_regroup {xs ys : List Nat}
    (h : Ascending (fun g : Group => goodness s g.1) (A ++ (p, xs) :: B)) :
    Ascending (fun g : Group => goodness s g.1) (A ++ (p, ys) :: B) := by
  have hmap : ∀ zs, (A ++ (p, zs) :: B).map (fun g : Group => goodness s g.1) =
      A.map (fun g => goodness s g.1) ++ goodness s p :: B.map (fun g => goodness s g.1) := by
    intro zs
    rw [map_append, map_cons]
  have hpair : List.Pairwise (fun a b => goodness s a.1 < goodness s b.1) (A ++ (p, xs) :: B) := h
  rw [← pairwise_map, hmap] at hpair
  show List.Pairwise (fun a b => goodness s a.1 < goodness s b.1) (A ++ (p, ys) :: B)
  rw [← pairwise_map, hmap]
  exact hpair

section

variable (hq : Queues pool links byKey L out) (hL : L i s = A ++ (p, x) :: B)
include hq hL

/-- No other queue has a slot of a group. -/
theorem not_mem_others
    {z : Nat} (hz : z ∈ x) :
    (∀ g ∈ A ++ B, z ∉ g.2) ∧ ∀ i' s', ¬ (i' = i ∧ s' = s) → ∀ g ∈ L i' s', z ∉ g.2 := by
  have hold : (p, x) ∈ L i s := by
    rw [hL]
    exact mem_append_right A mem_cons_self
  refine ⟨fun g hg hzg => ?_, fun i' s' hne g hg hzg => ?_⟩
  · have hgL : g ∈ L i s := by
      rw [hL]
      rcases mem_append.mp hg with hA | hB
      · exact mem_append_left _ hA
      · exact mem_append_right A (mem_cons_of_mem _ hB)
    obtain ⟨-, -, rfl⟩ := hq.eq_of_mem hgL hold hzg hz
    have hkeys : (A ++ (p, x) :: B).Nodup := by
      rw [← hL]
      exact List.Pairwise.imp (fun hlt he => absurd hlt (by rw [he]; exact lt_irrefl _))
        (hq.sorted i s)
    obtain ⟨-, hB, hdisj⟩ := nodup_append.mp hkeys
    rcases mem_append.mp hg with hA | hB'
    · exact hdisj _ hA _ mem_cons_self rfl
    · exact (nodup_cons.mp hB).1 hB'
  · obtain ⟨rfl, rfl, -⟩ := hq.eq_of_mem hg hold hzg hz
    exact hne ⟨rfl, rfl⟩

/-- A group rewritten: a queue is the new one, or an old one that has none of the group's slots. -/
theorem mem_regroup
    (x' : List Nat) : ∀ i' s', ∀ g ∈ L.set i s (A ++ (p, x') :: B) i' s',
      (g = (p, x') ∧ i' = i ∧ s' = s) ∨ (g ∈ L i' s' ∧ ∀ z ∈ x, z ∉ g.2) := by
  intro i' s' g hg
  by_cases he : i' = i ∧ s' = s
  · obtain ⟨rfl, rfl⟩ := he
    rw [Ladder.set_self] at hg
    by_cases hgp : g = (p, x')
    · exact .inl ⟨hgp, rfl, rfl⟩
    have hgAB : g ∈ A ++ B := by
      rcases mem_append.mp hg with hA | hB
      · exact mem_append_left B hA
      · exact mem_append_right A ((mem_cons.mp hB).resolve_left hgp)
    refine .inr ⟨?_, fun z hz => (hq.not_mem_others hL hz).1 g hgAB⟩
    rw [hL]
    rcases mem_append.mp hgAB with hA | hB
    · exact mem_append_left _ hA
    · exact mem_append_right A (mem_cons_of_mem _ hB)
  · rw [Ladder.set_of_ne L i s _ he] at hg
    exact .inr ⟨hg, fun z hz => (hq.not_mem_others hL hz).2 i' s' he g hg⟩

end

/-! ### An order leaves its queue -/

theorem mem_split {g : Group} (hg : g ∈ A ++ (p, x ++ h :: y) :: B) (hne : h ∉ g.2) :
    g ∈ A ++ B := by
  rcases mem_append.mp hg with hA | hB
  · exact mem_append_left B hA
  · rcases mem_cons.mp hB with rfl | hB
    · exact absurd (mem_append_right x mem_cons_self) hne
    · exact mem_append_right A hB

/-- The order in slot `h` is taken off its queue and freed. -/
theorem remove (hq : Queues pool links byKey L out)
    (hL : L i s = A ++ (p, x ++ h :: y) :: B) (ho : pool.slots h = some o) :
    Queues (pool.free h) (links.unlink h) (update byKey (orderKey o.account o.clOrdId) none)
      (L.set i s (A ++ (p, x ++ y) :: B)) out := by
  have hg : (p, x ++ h :: y) ∈ L i s := by
    rw [hL]
    exact mem_append_right A mem_cons_self
  have hchain : Links.Chain links none (x ++ h :: y) := hq.chain i s _ hg
  have hnodup : (x ++ h :: y).Nodup := hq.nodup i s _ hg
  have hin : h ∈ x ++ h :: y := mem_append_right x mem_cons_self
  have hsub : (x ++ y).Sublist (x ++ h :: y) :=
    (List.Sublist.refl x).append (sublist_cons_self h y)
  have hout : h ∉ x ++ y := by
    intro hm
    obtain ⟨-, hy, hdisj⟩ := nodup_append.mp hnodup
    rcases mem_append.mp hm with hm | hm
    · exact hdisj h hm h mem_cons_self rfl
    · exact (nodup_cons.mp hy).1 hm
  have hother := hq.mem_regroup hL (x ++ y)
  have hslots : ∀ k, k ≠ h → (pool.free h).slots k = pool.slots k := fun k hk => by
    rw [slots_free ho, if_neg hk]
  have hlive : ∀ k o', (pool.free h).slots k = some o' → k ≠ h ∧ pool.slots k = some o' := by
    intro k o' hk
    rw [slots_free ho] at hk
    split at hk
    · nomatch hk
    · exact ⟨‹_›, hk⟩
  constructor
  · refine Ladder.forall_set L i s _ hq.sorted ?_
    have hsorted := hq.sorted i s
    rw [hL] at hsorted
    exact ascending_regroup hsorted
  · intro i' s' g hg'
    rcases hother i' s' g hg' with ⟨rfl, -, -⟩ | ⟨hgL, hdisj⟩
    · exact hchain.unlink hnodup
    · exact (hq.chain i' s' g hgL).unlink_frame hchain hdisj
  · intro i' s' g hg'
    rcases hother i' s' g hg' with ⟨rfl, -, -⟩ | ⟨hgL, -⟩
    · exact hnodup.sublist hsub
    · exact hq.nodup i' s' g hgL
  · intro i' s' g hg' k hk
    have hold : k ≠ h ∧ out ≠ some k ∧ ∃ o, OrderPool.Waits pool k i' s' g.1 o := by
      rcases hother i' s' g hg' with ⟨rfl, rfl, rfl⟩ | ⟨hgL, hdisj⟩
      · exact ⟨fun he => hout (he ▸ hk), hq.placed _ _ _ hg k (hsub.subset hk)⟩
      · exact ⟨fun he => hdisj h hin (he ▸ hk), hq.placed i' s' g hgL k hk⟩
    obtain ⟨hne, hko, o', ho'⟩ := hold
    exact ⟨hko, o', by rw [hslots k hne]; exact ho'.slot, ho'.instrument, ho'.side, ho'.price,
      ho'.leaves⟩
  · intro k o' hk hko
    obtain ⟨hne, hk'⟩ := hlive k o' hk
    obtain ⟨g, hgL, hkg⟩ := hq.queued k o' hk' hko
    by_cases he : o'.instrument.value = i ∧ o'.side = s
    · rw [he.1, he.2] at hgL
      rw [he.1, he.2, Ladder.set_self]
      by_cases hgh : h ∈ g.2
      · obtain ⟨-, -, rfl⟩ := hq.eq_of_mem hgL hg hgh hin
        refine ⟨(p, x ++ y), mem_append_right A mem_cons_self, ?_⟩
        rcases mem_append.mp hkg with hx | hy
        · exact mem_append_left y hx
        · exact mem_append_right x ((mem_cons.mp hy).resolve_left hne)
      · rw [hL] at hgL
        refine ⟨g, ?_, hkg⟩
        rcases mem_append.mp (mem_split hgL hgh) with hA | hB
        · exact mem_append_left _ hA
        · exact mem_append_right A (mem_cons_of_mem _ hB)
    · rw [Ladder.set_of_ne L i s _ he]
      exact ⟨g, hgL, hkg⟩
  · intro k h'
    rw [update_apply]
    split_ifs with hk
    · refine ⟨nofun, ?_⟩
      rintro ⟨o', ho', hkey⟩
      obtain ⟨hne, hold⟩ := hlive h' o' ho'
      have h₁ := (hq.keys k h').mpr ⟨o', hold, hkey⟩
      have h₂ := (hq.keys k h).mpr ⟨o, ho, hk.symm⟩
      exact absurd (Option.some.inj (h₁.symm.trans h₂)) hne
    · rw [hq.keys]
      constructor
      · rintro ⟨o', ho', hkey⟩
        have hne : h' ≠ h := by
          rintro rfl
          obtain rfl := Option.some.inj (ho.symm.trans ho')
          exact hk hkey.symm
        exact ⟨o', by rw [hslots h' hne]; exact ho', hkey⟩
      · rintro ⟨o', ho', hkey⟩
        exact ⟨o', (hlive h' o' ho').2, hkey⟩

/-! ### An order is rewritten -/

section

variable (hq : Queues pool links byKey L out) (ho : pool.slots h = some o)
include hq ho

/-- The order in slot `h` is rewritten where it stands. -/
theorem rewrite {byKey' : Nat → Option Nat} (hinst : o'.instrument = o.instrument)
    (hside : o'.side = o.side)
    (hprice : o'.price = o.price) (hleaves : out ≠ some h → 0 < o'.leaves)
    (hkeys : ∀ k h', byKey' k = some h' ↔
      ∃ o₁, (pool.set h o').slots h' = some o₁ ∧ orderKey o₁.account o₁.clOrdId = k) :
    Queues (pool.set h o') links byKey' L out := by
  have hslots := slots_set (o := o') ho
  constructor
  · exact hq.sorted
  · exact hq.chain
  · exact hq.nodup
  · intro i s g hg k hk
    obtain ⟨hout, o₁, ho₁⟩ := hq.placed i s g hg k hk
    refine ⟨hout, ?_⟩
    by_cases hkh : k = h
    · subst hkh
      obtain rfl := Option.some.inj (ho.symm.trans ho₁.slot)
      exact ⟨o', by rw [hslots, if_pos rfl], hinst ▸ ho₁.instrument, hside.trans ho₁.side,
        hprice.trans ho₁.price, hleaves hout⟩
    · exact ⟨o₁, by rw [hslots, if_neg hkh]; exact ho₁.slot, ho₁.instrument, ho₁.side, ho₁.price,
        ho₁.leaves⟩
  · intro k o₁ hk hout
    rw [hslots] at hk
    split_ifs at hk with hkh
    · obtain rfl := Option.some.inj hk
      rw [hinst, hside]
      exact hkh ▸ hq.queued h o ho (hkh ▸ hout)
    · exact hq.queued k o₁ hk hout
  · exact hkeys

/-- The handle map stays when the order keeps its account and id. -/
theorem keys_set (o' : SimOrder)
    (hkey : orderKey o'.account o'.clOrdId = orderKey o.account o.clOrdId) (k h' : Nat) :
    byKey k = some h' ↔
      ∃ o₁, (pool.set h o').slots h' = some o₁ ∧ orderKey o₁.account o₁.clOrdId = k := by
  rw [hq.keys]
  have hslots := slots_set (o := o') ho h'
  by_cases hh : h' = h
  · subst hh
    rw [hslots, if_pos rfl]
    constructor
    · rintro ⟨o₁, ho₁, hk⟩
      obtain rfl := Option.some.inj (ho.symm.trans ho₁)
      exact ⟨o', rfl, hkey.trans hk⟩
    · rintro ⟨o₁, ho₁, hk⟩
      obtain rfl := Option.some.inj ho₁
      exact ⟨o, ho, hkey.symm.trans hk⟩
  · rw [hslots, if_neg hh]

/-- An id that is free takes the place of the order's own. -/
theorem keys_rename
    (o' : SimOrder) (id : ClientOrderId) (haccount : o'.account = o.account) (hid : o'.clOrdId = id)
    (hfree : byKey (orderKey o.account id) = none) (k h' : Nat) :
    update (update byKey (orderKey o.account o.clOrdId) none)
        (orderKey o.account id) (some h) k = some h' ↔
      ∃ o₁, (pool.set h o').slots h' = some o₁ ∧ orderKey o₁.account o₁.clOrdId = k := by
  have hslots := slots_set (o := o') ho h'
  have hnew : orderKey o'.account o'.clOrdId = orderKey o.account id := by rw [haccount, hid]
  have hown : byKey (orderKey o.account o.clOrdId) = some h := (hq.keys _ h).mpr ⟨o, ho, rfl⟩
  by_cases hh : h' = h
  · subst hh
    rw [hslots, if_pos rfl, update_apply, update_apply]
    constructor
    · intro hk
      split at hk
      · exact ⟨o', rfl, by rw [hnew]; exact Eq.symm ‹_›⟩
      split at hk
      · nomatch hk
      rename_i hne
      obtain ⟨o₁, ho₁, hkey⟩ := (hq.keys k h').mp hk
      obtain rfl := Option.some.inj (ho.symm.trans ho₁)
      exact absurd hkey.symm hne
    · rintro ⟨o₁, ho₁, hk⟩
      obtain rfl := Option.some.inj ho₁
      rw [if_pos (hk.symm.trans hnew)]
  · rw [hslots, if_neg hh, update_apply, update_apply, ← hq.keys]
    split
    · rename_i hk
      rw [hk, hfree]
      exact ⟨fun he => absurd (Option.some.inj he).symm hh, nofun⟩
    · split
      · rename_i hk
        rw [hk, hown]
        exact ⟨nofun, fun he => absurd (Option.some.inj he).symm hh⟩
      · exact Iff.rfl

end

/-! ### An order joins a queue -/

/-- A side keeps its groups but for those without orders. -/
theorem regroup_empty (hq : Queues pool links byKey L out) {gs : List Group}
    (hsorted : Ascending (fun g : Group => goodness s g.1) gs)
    (hfrom : ∀ g ∈ gs, g.2 = [] ∨ g ∈ L i s) (hall : ∀ g ∈ L i s, g.2 = [] ∨ g ∈ gs) :
    Queues pool links byKey (L.set i s gs) out := by
  have hmem : ∀ i' s', ∀ g ∈ L.set i s gs i' s', g.2 = [] ∨ g ∈ L i' s' :=
    Ladder.forall_set (P := fun i' s' gs => ∀ g ∈ gs, g.2 = [] ∨ g ∈ L i' s') L i s _
      (fun i' s' g hg => .inr hg) hfrom
  constructor
  · exact Ladder.forall_set L i s _ hq.sorted hsorted
  · intro i' s' g hg
    rcases hmem i' s' g hg with he | hgL
    · rw [he]
      trivial
    · exact hq.chain i' s' g hgL
  · intro i' s' g hg
    rcases hmem i' s' g hg with he | hgL
    · rw [he]
      exact nodup_nil
    · exact hq.nodup i' s' g hgL
  · intro i' s' g hg k hk
    rcases hmem i' s' g hg with he | hgL
    · rw [he] at hk
      exact absurd hk not_mem_nil
    · exact hq.placed i' s' g hgL k hk
  · intro k o₁ hk hout
    obtain ⟨g, hg, hkg⟩ := hq.queued k o₁ hk hout
    by_cases he : o₁.instrument.value = i ∧ o₁.side = s
    · rw [he.1, he.2] at hg ⊢
      rw [Ladder.set_self]
      rcases hall g hg with hnil | hgs
      · rw [hnil] at hkg
        exact absurd hkg not_mem_nil
      · exact ⟨g, hgs, hkg⟩
    · rw [Ladder.set_of_ne L i s _ he]
      exact ⟨g, hg, hkg⟩
  · exact hq.keys

/-- A price without orders. -/
theorem addGroup (hq : Queues pool links byKey L out) (hL : L i s = A ++ B)
    (hsorted : Ascending (fun g : Group => goodness s g.1) (A ++ (p, []) :: B)) :
    Queues pool links byKey (L.set i s (A ++ (p, []) :: B)) out := by
  refine hq.regroup_empty hsorted (fun g hg => ?_) fun g hg => .inr ?_
  · rw [hL]
    rcases mem_append.mp hg with hA | hB
    · exact .inr (mem_append_left B hA)
    · exact (mem_cons.mp hB).imp (congrArg Prod.snd) (mem_append_right A)
  · rw [hL] at hg
    exact (mem_append.mp hg).elim (mem_append_left _) fun hB =>
      mem_append_right A (mem_cons_of_mem _ hB)

/-- A price whose orders are gone. -/
theorem dropGroup (hq : Queues pool links byKey L out) (hL : L i s = A ++ (p, []) :: B) :
    Queues pool links byKey (L.set i s (A ++ B)) out := by
  have hsorted := hq.sorted i s
  rw [hL] at hsorted
  refine hq.regroup_empty
    (hsorted.sublist ((List.Sublist.refl A).append (sublist_cons_self _ B))) (fun g hg => .inr ?_)
    fun g hg => ?_
  · rw [hL]
    exact (mem_append.mp hg).elim (mem_append_left _) fun hB =>
      mem_append_right A (mem_cons_of_mem _ hB)
  · rw [hL] at hg
    rcases mem_append.mp hg with hA | hB
    · exact .inr (mem_append_left B hA)
    · exact (mem_cons.mp hB).imp (congrArg Prod.snd) (mem_append_right A)

/-- The order that is on no queue goes to the end of one. -/
theorem push (hq : Queues pool links byKey L (some h)) (hL : L i s = A ++ (p, x) :: B)
    (ho : OrderPool.Waits pool h i s p o) :
    Queues pool (links.linkBack x.getLast? h) byKey (L.set i s (A ++ (p, x ++ [h]) :: B))
      none := by
  have hg : (p, x) ∈ L i s := by
    rw [hL]
    exact mem_append_right A mem_cons_self
  have hfresh : ∀ i' s', ∀ g ∈ L i' s', h ∉ g.2 := fun i' s' g hg' hh =>
    (hq.placed i' s' g hg' h hh).1 rfl
  have hother := hq.mem_regroup hL (x ++ [h])
  constructor
  · refine Ladder.forall_set L i s _ hq.sorted ?_
    have hsorted := hq.sorted i s
    rw [hL] at hsorted
    exact ascending_regroup hsorted
  · intro i' s' g hg'
    rcases hother i' s' g hg' with ⟨rfl, -, -⟩ | ⟨hgL, hdisj⟩
    · exact (hq.chain i s _ hg).linkBack (hq.nodup i s _ hg) (hfresh i s _ hg)
    · exact (hq.chain i' s' g hgL).linkBack_frame (hfresh i' s' g hgL) hdisj
  · intro i' s' g hg'
    rcases hother i' s' g hg' with ⟨rfl, -, -⟩ | ⟨hgL, -⟩
    · refine nodup_append.mpr ⟨hq.nodup i s _ hg, nodup_singleton h, ?_⟩
      intro z hz z' hz' he
      rw [mem_singleton.mp hz'] at he
      exact hfresh i s _ hg (he ▸ hz)
    · exact hq.nodup i' s' g hgL
  · intro i' s' g hg' k hk
    refine ⟨by simp, ?_⟩
    rcases hother i' s' g hg' with ⟨rfl, rfl, rfl⟩ | ⟨hgL, -⟩
    · rcases mem_append.mp hk with hk | hk
      · exact (hq.placed _ _ _ hg k hk).2
      · rw [mem_singleton.mp hk]
        exact ⟨o, ho⟩
    · exact (hq.placed i' s' g hgL k hk).2
  · intro k o₁ hk _
    by_cases hkh : k = h
    · subst hkh
      obtain rfl := Option.some.inj (ho.slot.symm.trans hk)
      rw [ho.instrument, ho.side, Ladder.set_self]
      exact ⟨(p, x ++ [k]), mem_append_right A mem_cons_self, mem_append_right x mem_cons_self⟩
    obtain ⟨g, hgL, hkg⟩ := hq.queued k o₁ hk fun he => hkh (Option.some.inj he).symm
    by_cases he : o₁.instrument.value = i ∧ o₁.side = s
    · rw [he.1, he.2, hL] at hgL
      rw [he.1, he.2, Ladder.set_self]
      rcases mem_append.mp hgL with hA | hB
      · exact ⟨g, mem_append_left _ hA, hkg⟩
      · rcases mem_cons.mp hB with rfl | hB
        · exact ⟨(p, x ++ [h]), mem_append_right A mem_cons_self, mem_append_left _ hkg⟩
        · exact ⟨g, mem_append_right A (mem_cons_of_mem _ hB), hkg⟩
    · rw [Ladder.set_of_ne L i s _ he]
      exact ⟨g, hgL, hkg⟩
  · exact hq.keys

/-! ### An order comes and goes -/

/-- A new order, on no queue yet. -/
theorem allocate (hq : Queues pool links byKey L none) (ha : pool.allocate = some (h, pool'))
    (hfree : byKey (orderKey o.account o.clOrdId) = none) :
    Queues (pool'.set h o) links (update byKey (orderKey o.account o.clOrdId) (some h))
      L (some h) := by
  obtain ⟨hdead, -, halloc⟩ := allocate_spec ha
  have hnew : pool'.slots h = some default := by rw [halloc, if_pos rfl]
  have hslots : ∀ k, (pool'.set h o).slots k = if k = h then some o else pool.slots k := by
    intro k
    rw [slots_set hnew]
    split_ifs with hk
    · rfl
    · rw [halloc, if_neg hk]
  have hne : ∀ k o₁, pool.slots k = some o₁ → k ≠ h := fun k o₁ hk he => by
    simp [he, hdead] at hk
  constructor
  · exact hq.sorted
  · exact hq.chain
  · exact hq.nodup
  · intro i s g hg k hk
    obtain ⟨-, o₁, ho₁⟩ := hq.placed i s g hg k hk
    have hkh := hne k o₁ ho₁.slot
    exact ⟨fun he => hkh (Option.some.inj he).symm, o₁, by rw [hslots, if_neg hkh]; exact ho₁.slot,
      ho₁.instrument, ho₁.side, ho₁.price, ho₁.leaves⟩
  · intro k o₁ hk hout
    have hkh : k ≠ h := fun he => hout (congrArg some he.symm)
    rw [hslots, if_neg hkh] at hk
    exact hq.queued k o₁ hk (by simp)
  intro k h'
  rw [update_apply, hslots]
  by_cases hh : h' = h
  · subst hh
    rw [if_pos rfl]
    constructor
    · intro hk
      split at hk
      · exact ⟨o, rfl, Eq.symm ‹_›⟩
      · obtain ⟨o₁, ho₁, -⟩ := (hq.keys k h').mp hk
        exact absurd rfl (hne h' o₁ ho₁)
    · rintro ⟨o₁, ho₁, hk⟩
      obtain rfl := Option.some.inj ho₁
      rw [if_pos hk.symm]
  · rw [if_neg hh, ← hq.keys]
    split_ifs with hk
    · rw [hk, hfree]
      exact ⟨fun he => absurd (Option.some.inj he).symm hh, nofun⟩
    · exact Iff.rfl

/-- The order on no queue ends. -/
theorem free (hq : Queues pool links byKey L (some h)) (ho : pool.slots h = some o) :
    Queues (pool.free h) links (update byKey (orderKey o.account o.clOrdId) none) L
      none := by
  have hslots := slots_free ho
  constructor
  · exact hq.sorted
  · exact hq.chain
  · exact hq.nodup
  · intro i s g hg k hk
    obtain ⟨hout, o₁, ho₁⟩ := hq.placed i s g hg k hk
    have hkh : k ≠ h := fun he => hout (congrArg some he.symm)
    exact ⟨by simp, o₁, by rw [hslots, if_neg hkh]; exact ho₁.slot, ho₁.instrument, ho₁.side,
      ho₁.price, ho₁.leaves⟩
  · intro k o₁ hk _
    rw [hslots] at hk
    split at hk
    · nomatch hk
    · exact hq.queued k o₁ hk fun he => ‹¬ k = h› (Option.some.inj he).symm
  intro k h'
  rw [update_apply, hslots]
  split
  · rename_i hk
    refine ⟨nofun, ?_⟩
    rintro ⟨o₁, ho₁, hkey⟩
    split at ho₁
    · nomatch ho₁
    rename_i hh
    have h₁ := (hq.keys k h').mpr ⟨o₁, ho₁, hkey⟩
    have h₂ := (hq.keys k h).mpr ⟨o, ho, hk.symm⟩
    exact absurd (Option.some.inj (h₁.symm.trans h₂)) hh
  · rename_i hk
    rw [hq.keys]
    constructor
    · rintro ⟨o₁, ho₁, hkey⟩
      have hh : h' ≠ h := by
        rintro rfl
        obtain rfl := Option.some.inj (ho.symm.trans ho₁)
        exact hk hkey.symm
      exact ⟨o₁, by rw [if_neg hh]; exact ho₁, hkey⟩
    · rintro ⟨o₁, ho₁, hkey⟩
      split at ho₁
      · nomatch ho₁
      · exact ⟨o₁, ho₁, hkey⟩

end Queues

end FastMM.Sim
