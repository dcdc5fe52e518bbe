/-
  Engine/RiskBands.lean --- the mids between which no mark can trip `max_loss`.

  Source: `update_risk_bands` and `band_edge` of `include/fastmm/core/engine.hpp`, `on_pnl` of
  `risk.hpp`, `revalue` of `position.hpp`.

  The loss left is shared over the instruments with a position.  An edge is looked for between the
  mark and a far end, and the mid next to it is checked to lose less than the share; a loss only
  grows away from the mark, so every mid inside the edge does.  The far end itself is taken without
  a look at the mid next to it: below a mark of sixteen raw units it is zero, which is no mid, and
  is valued at nothing; and a value that does not fit in 64 bits there wraps.
-/
import FastMM.Position.Valued
import FastMM.Book.OwnBox
set_option autoImplicit false

namespace FastMM

open List PositionTracker

open OwnShown (kBelow kAbove)

/-! ## Edges -/

/-- The search of `band_edge`, so many rounds of it at most: `none` when they do not do. -/
def searchFrom (loss : Int → Int) (share mark step : Int) : Nat → Int → Option Int
  | 0, _ => none
  | n + 1, e =>
    if e ≠ mark ∧ share ≤ loss (e + step) then
      searchFrom loss share mark step n (e + (mark - e + step).tdiv 2)
    else some e

/-- Where the search starts: the secant from the mark to the end. -/
def secant (mark stop share atEnd : Int) : Int := mark + ((stop - mark) * share).tdiv atEnd

/-- The loss from one mark to another mid. -/
def lossFrom (p : Position) (inst : Instrument) (mark mid : Int) : Int :=
  unrealizedAt p mark inst - unrealizedAt p mid inst

/-- `band_edge`.  The search has the rounds it can need at most. -/
def bandEdge (p : Position) (inst : Instrument) (mark stop share : Int) : Int :=
  let loss := lossFrom p inst mark
  let atEnd := loss stop
  if atEnd < share then stop
  else
    let e := secant mark stop share atEnd
    let step := if stop < mark then 1 else -1
    (searchFrom loss share mark step ((mark - e).natAbs + 1) e).getD mark

/-- The far end of a band: a sixteenth of the mark below it or four times it above. -/
def bandEnd (long : Bool) (mark : Int) : Int :=
  if long = true then mark.tdiv 16 else if kAbove.tdiv 4 < mark then kAbove else mark * 4

/-! ## Bands -/

/-- What `update_risk_bands` reads of the engine. -/
structure RiskView where
  table : InstrumentTable
  positions : PositionTracker
  pnlCarry : Notional := 0
  maxLoss : Notional := 0
  killed : Bool := false

namespace RiskView

variable (v : RiskView)

def netPnl : Notional :=
  v.positions.totalRealized + v.positions.totalUnrealized - v.positions.totalFees + v.pnlCarry

/-- The instruments with a position. -/
def held : Finset (Fin kMaxInstruments) :=
  Finset.univ.filter fun i => i.val < v.table.count ∧ (v.positions.pos i).qty ≠ 0

/-- What is left to lose. -/
def left : Int := v.netPnl + v.maxLoss

def share : Int := if 0 < v.left then v.left.tdiv v.held.card else 0

/-- The band of an instrument after `update_risk_bands`: `risk_lo_` and `risk_hi_`. -/
def band (i : Fin kMaxInstruments) : Int × Int :=
  let p := v.positions.pos i
  let mark := p.lastMark
  if ¬ 0 < v.maxLoss ∨ v.killed = true ∨ i ∉ v.held then (kBelow, kAbove)
  else if v.share ≤ 0 ∨ ¬ 0 < mark then (kAbove, kAbove)
  else if 0 < p.qty then
    (bandEdge p (v.table.inst i) mark (bandEnd true mark) v.share, kAbove)
  else (kBelow, bandEdge p (v.table.inst i) mark (bandEnd false mark) v.share)

/-- The first `n` instruments' positions marked at mids, those of a list in its order. -/
def markEach (n : Nat) (insts : Fin kMaxInstruments → Instrument)
    (mids : Fin kMaxInstruments → Price) (is : List (Fin kMaxInstruments)) (t : PositionTracker) :
    PositionTracker :=
  is.foldl (fun t i => if i.val < n then t.mark i (mids i) (insts i) else t) t

/-- The positions marked at other mids. -/
def markedAt (mids : Fin kMaxInstruments → Price) : RiskView :=
  { v with
    positions :=
      markEach v.table.count v.table.inst mids (List.finRange kMaxInstruments) v.positions }

/-- Mids within every band leave the net PnL above the loss limit; at each the position has a value
that fits. -/
def NoBreachInside : Prop :=
  ∀ mids : Fin kMaxInstruments → Price, (∀ i, i.val < v.table.count → 0 < mids i) →
    (∀ i ∈ v.held, ValueFits (v.positions.pos i) (mids i) (v.table.inst i)) →
    (∀ i ∈ v.held, (v.band i).1 < mids i ∧ mids i < (v.band i).2) →
    -v.maxLoss < (v.markedAt mids).netPnl

end RiskView

/-! ## The search ends -/

section Search

variable {loss : Int → Int} {share mark step : Int}

/-- From a start on its side of the mark the search ends, no further from the mark, at the mark or
where the next mid loses less. -/
theorem searchFrom_ends {n : Nat} {e : Int} (hn : (mark - e).natAbs < n)
    (hside : (step = 1 ∧ e ≤ mark) ∨ (step = -1 ∧ mark ≤ e)) :
    ∃ r, searchFrom loss share mark step n e = some r ∧ (r = mark ∨ loss (r + step) < share) ∧
      ((step = 1 ∧ e ≤ r ∧ r ≤ mark) ∨ (step = -1 ∧ mark ≤ r ∧ r ≤ e)) := by
  induction n generalizing e with
  | zero => exact absurd hn (Nat.not_lt_zero _)
  | succ n ih =>
    unfold searchFrom
    split_ifs with hmore
    · -- A round takes off half of the distance, rounded up.
      have hhalf : ((step = 1 ∧ e ≤ mark) → (mark - e + step).tdiv 2 = (mark - e + 1) / 2) ∧
          ((step = -1 ∧ mark ≤ e) → (mark - e + step).tdiv 2 = -((e - mark + 1) / 2)) := by
        constructor
        · rintro ⟨rfl, hle⟩
          exact Int.tdiv_eq_ediv_of_nonneg (by omega)
        · rintro ⟨rfl, hle⟩
          rw [show mark - e + -1 = -(e - mark + 1) by ring, Int.neg_tdiv,
            Int.tdiv_eq_ediv_of_nonneg (by omega)]
      rcases hside with ⟨rfl, hle⟩ | ⟨rfl, hle⟩
      · rw [hhalf.1 ⟨rfl, hle⟩]
        obtain ⟨r, hr, hloss, hbetween⟩ := ih (e := e + (mark - e + 1) / 2) (by omega)
          (Or.inl ⟨rfl, by omega⟩)
        exact ⟨r, hr, hloss, Or.inl ⟨rfl, by omega, by omega⟩⟩
      · rw [hhalf.2 ⟨rfl, hle⟩]
        obtain ⟨r, hr, hloss, hbetween⟩ := ih (e := e + -((e - mark + 1) / 2)) (by omega)
          (Or.inr ⟨rfl, by omega⟩)
        exact ⟨r, hr, hloss, Or.inr ⟨rfl, by omega, by omega⟩⟩
    · refine ⟨e, rfl, ?_, hside.imp (fun h => ⟨h.1, le_refl _, h.2⟩)
        fun h => ⟨h.1, h.2, le_refl _⟩⟩
      by_cases hmark : e = mark
      · exact Or.inl hmark
      · exact Or.inr (not_le.mp fun hle => hmore ⟨hmark, hle⟩)

/-- The secant lies between the mark and the end. -/
theorem secant_between {stop atEnd : Int} (hshare : 0 < share) (hend : share ≤ atEnd) :
    (stop ≤ mark → stop ≤ secant mark stop share atEnd ∧ secant mark stop share atEnd ≤ mark) ∧
      (mark ≤ stop → mark ≤ secant mark stop share atEnd ∧
        secant mark stop share atEnd ≤ stop) := by
  have hpos : 0 < atEnd := hshare.trans_le hend
  have hpart : ∀ d : Int, 0 ≤ d → 0 ≤ (d * share).tdiv atEnd ∧ (d * share).tdiv atEnd ≤ d := by
    intro d hd
    rw [Int.tdiv_eq_ediv_of_nonneg (mul_nonneg hd hshare.le)]
    refine ⟨Int.ediv_nonneg (mul_nonneg hd hshare.le) hpos.le, ?_⟩
    exact Int.ediv_le_of_le_mul hpos (mul_le_mul_of_nonneg_left hend hd)
  unfold secant
  refine ⟨fun hle => ?_, fun hle => ?_⟩
  · have hd := hpart (mark - stop) (sub_nonneg.mpr hle)
    have hneg : ((stop - mark) * share).tdiv atEnd = -((mark - stop) * share).tdiv atEnd := by
      rw [← Int.neg_tdiv]
      congr 1
      ring
    omega
  · have hd := hpart (stop - mark) (sub_nonneg.mpr hle)
    omega

end Search

/-! ## Inside an edge -/

section Edge

variable {p : Position} {inst : Instrument} {mark stop share mid : Int}

/-- The edge is the far end, which loses less than the share, or the mark, or next to a mid that
loses less. -/
theorem bandEdge_spec (hshare : 0 < share) :
    (lossFrom p inst mark stop < share ∧ bandEdge p inst mark stop share = stop) ∨
      ((bandEdge p inst mark stop share = mark ∨
          lossFrom p inst mark (bandEdge p inst mark stop share + if stop < mark then 1 else -1) <
            share) ∧
        (stop < mark → stop ≤ bandEdge p inst mark stop share ∧
          bandEdge p inst mark stop share ≤ mark) ∧
        (¬ stop < mark → mark ≤ bandEdge p inst mark stop share ∧
          bandEdge p inst mark stop share ≤ stop)) := by
  unfold bandEdge
  by_cases hend : lossFrom p inst mark stop < share
  · rw [if_pos hend]
    exact Or.inl ⟨hend, rfl⟩
  rw [if_neg hend]
  refine Or.inr ?_
  obtain ⟨hbelow, habove⟩ := @secant_between share mark stop _ hshare (not_lt.mp hend)
  generalize secant mark stop share (lossFrom p inst mark stop) = e at hbelow habove ⊢
  by_cases hside : stop < mark
  · simp only [if_pos hside]
    obtain ⟨hlo, hhi⟩ := hbelow hside.le
    obtain ⟨r, hr, hloss, hbetween⟩ := @searchFrom_ends (lossFrom p inst mark) share mark 1
      ((mark - e).natAbs + 1) e (Nat.lt_succ_self _) (Or.inl ⟨rfl, hhi⟩)
    rw [hr]
    refine ⟨hloss, fun _ => ?_, absurd hside⟩
    show stop ≤ r ∧ r ≤ mark
    omega
  · simp only [if_neg hside]
    obtain ⟨hlo, hhi⟩ := habove (not_lt.mp hside)
    obtain ⟨r, hr, hloss, hbetween⟩ := @searchFrom_ends (lossFrom p inst mark) share mark (-1)
      ((mark - e).natAbs + 1) e (Nat.lt_succ_self _) (Or.inr ⟨rfl, hlo⟩)
    rw [hr]
    refine ⟨hloss, fun h => absurd h hside, fun _ => ?_⟩
    show mark ≤ r ∧ r ≤ stop
    omega

theorem lossFrom_self (p : Position) (inst : Instrument) (mark : Int) :
    lossFrom p inst mark mark = 0 := sub_self _

section

variable (hmult : 0 < inst.contractMultiplier)
include hmult

/-- A long loses no more at a higher mid. -/
theorem lossFrom_le_of_long (hqty : 0 < p.qty) {m : Int} (hm : 0 < m) (h : m ≤ mid)
    (hfits : ValueFits p m inst) (hfits' : ValueFits p mid inst) :
    lossFrom p inst mark mid ≤ lossFrom p inst mark m := by
  unfold lossFrom
  rw [unrealizedAt_eq hfits, unrealizedAt_eq hfits']
  exact sub_le_sub_left (revalue_mono_of_long hmult hqty hm h) _

/-- A short loses no more at a lower mid. -/
theorem lossFrom_le_of_short (hqty : p.qty < 0) {m : Int} (hmid : 0 < mid) (h : mid ≤ m)
    (hfits : ValueFits p m inst) (hfits' : ValueFits p mid inst) :
    lossFrom p inst mark mid ≤ lossFrom p inst mark m := by
  unfold lossFrom
  rw [unrealizedAt_eq hfits, unrealizedAt_eq hfits']
  exact sub_le_sub_left (revalue_anti_of_short hmult hqty hmid h) _

section

variable (hmark : 0 < mark) (hshare : 0 < share) (hmid : 0 < mid)
variable (hfits : ValueFits p mark inst) (hend : ValueFits p (max 1 stop) inst)
variable (hfits' : ValueFits p mid inst)
include hmark hshare hmid hfits hend hfits'

/-- Above its edge a long loses less than the share, unless the far end is no mid and was taken
although the lowest mid loses as much. -/
theorem lossFrom_lt_of_long (hqty : 0 < p.qty) (hstop : 0 ≤ stop) (hbelow : stop < mark)
    (hlow : stop = 0 → share ≤ lossFrom p inst mark 0 ∨ lossFrom p inst mark 1 < share)
    (hin : bandEdge p inst mark stop share < mid) : lossFrom p inst mark mid < share := by
  have hat : mark ≤ mid → lossFrom p inst mark mid < share := fun hle =>
    ((lossFrom_le_of_long hmult hqty hmark hle hfits hfits').trans_eq
      (lossFrom_self p inst mark)).trans_lt hshare
  rcases @bandEdge_spec p inst mark stop share hshare with ⟨hless, hedge⟩ | ⟨hnext, hbetween, -⟩
  · rw [hedge] at hin
    rcases hstop.lt_or_eq with hpos | hzero
    · rw [max_eq_right (show 1 ≤ stop from hpos)] at hend
      exact (lossFrom_le_of_long hmult hqty hpos hin.le hend hfits').trans_lt hless
    rcases hlow hzero.symm with hle | hlt
    · exact absurd (hzero ▸ hless) (not_lt.mpr hle)
    · rw [← hzero, max_eq_left Int.one_pos.le] at hend
      exact (lossFrom_le_of_long hmult hqty Int.one_pos (by omega) hend hfits').trans_lt hlt
  · obtain ⟨hlo, hhi⟩ := hbetween hbelow
    rw [if_pos hbelow] at hnext
    rcases hhi.lt_or_eq with hless | heq
    · -- The mid next to the edge lies between the end and the mark.
      have hnear : max 1 stop ≤ bandEdge p inst mark stop share + 1 := by omega
      have hfits'' := ValueFits.between hmult (lt_max_of_lt_left Int.one_pos) hend hfits hnear
        (Int.add_one_le_of_lt hless)
      exact (lossFrom_le_of_long hmult hqty (by omega) (by omega) hfits'' hfits').trans_lt
        (hnext.resolve_left hless.ne)
    · exact hat (heq ▸ hin.le)

/-- Below its edge a short loses less than the share. -/
theorem lossFrom_lt_of_short (hqty : p.qty < 0) (hin : mid < bandEdge p inst mark stop share) :
    lossFrom p inst mark mid < share := by
  have hat : mid ≤ mark → lossFrom p inst mark mid < share := fun hle =>
    ((lossFrom_le_of_short hmult hqty hmid hle hfits hfits').trans_eq
      (lossFrom_self p inst mark)).trans_lt hshare
  rcases @bandEdge_spec p inst mark stop share hshare with
    ⟨hless, hedge⟩ | ⟨hnext, hbelow, habove⟩
  · rw [hedge] at hin
    rw [max_eq_right (show 1 ≤ stop from hmid.trans hin)] at hend
    exact (lossFrom_le_of_short hmult hqty hmid hin.le hend hfits').trans_lt hless
  by_cases hside : stop < mark
  · exact hat (hin.le.trans (hbelow hside).2)
  obtain ⟨hlo, hhi⟩ := habove hside
  rw [if_neg hside] at hnext
  rcases hlo.lt_or_eq with hless | heq
  · have hnear : mark ≤ bandEdge p inst mark stop share + -1 := by omega
    have hfar : bandEdge p inst mark stop share + -1 ≤ max 1 stop := by omega
    have hfits'' := ValueFits.between hmult hmark hfits hend hnear hfar
    exact (lossFrom_le_of_short hmult hqty hmid (by omega) hfits'' hfits').trans_lt
      (hnext.resolve_left hless.ne')
  · exact hat (heq ▸ hin.le)

end

end

end Edge

namespace RiskView

/-- The held positions' values fit in 64 bits at their marks, and where there is a share to lose at
the far ends of their bands, or at the lowest mid where that end is none. -/
def ValuesFit (v : RiskView) : Prop :=
  ∀ i ∈ v.held, 0 < (v.positions.pos i).lastMark →
    ValueFits (v.positions.pos i) (v.positions.pos i).lastMark (v.table.inst i) ∧
      (0 < v.share → ValueFits (v.positions.pos i)
        (max 1 (bandEnd (decide (0 < (v.positions.pos i).qty)) (v.positions.pos i).lastMark))
        (v.table.inst i))

theorem ValuesFit.unrealizedAt_mark {v : RiskView} (h : v.ValuesFit) {i : Fin kMaxInstruments}
    (hi : i ∈ v.held) :
    unrealizedAt (v.positions.pos i) (v.positions.pos i).lastMark (v.table.inst i) =
      revalue (v.positions.pos i) (v.positions.pos i).lastMark (v.table.inst i) := by
  rcases lt_or_ge 0 (v.positions.pos i).lastMark with hmark | hnone
  · exact unrealizedAt_eq (h i hi hmark).1
  · unfold unrealizedAt revalue
    rw [if_pos (Or.inr hnone), if_pos (Or.inr hnone)]

/-! ## Positions marked again -/

section Marked

variable {v : RiskView} {mids : Fin kMaxInstruments → Price}

/-- The positions after marks of some instruments. -/
theorem markEach_spec (n : Nat) (insts : Fin kMaxInstruments → Instrument)
    (mids : Fin kMaxInstruments → Price) {is : List (Fin kMaxInstruments)} (hnd : is.Nodup)
    (t : PositionTracker) :
    (t.Exact → (markEach n insts mids is t).Exact) ∧
      (markEach n insts mids is t).ccyCount = t.ccyCount ∧
      ∀ j, (markEach n insts mids is t).pos j = if j ∈ is ∧ j.val < n then
        { t.pos j with
          lastMark := mids j
          unrealized := revalue (t.pos j) (mids j) (insts j) }
      else t.pos j := by
  unfold markEach
  induction is generalizing t with
  | nil => exact ⟨id, rfl, fun j => (if_neg fun h => absurd h.1 not_mem_nil).symm⟩
  | cons i is ih =>
    obtain ⟨hfresh, hnd'⟩ := nodup_cons.mp hnd
    rw [foldl_cons]
    obtain ⟨hexact, hcount, hpos⟩ :=
      ih hnd' (if i.val < n then t.mark i (mids i) (insts i) else t)
    have hstep : (t.Exact → (if i.val < n then t.mark i (mids i) (insts i) else t).Exact) ∧
        (if i.val < n then t.mark i (mids i) (insts i) else t).ccyCount = t.ccyCount := by
      split_ifs
      · have htouch := (PositionTracker.Touches.refl t i).mark (mids i) (insts i)
        have hcount : (t.mark i (mids i) (insts i)).ccyCount = t.ccyCount := by
          obtain ⟨_, _, hchanged⟩ := htouch
          exact hchanged.count
        exact ⟨PositionTracker.Touches.exact htouch, hcount⟩
      · exact ⟨id, rfl⟩
    refine ⟨fun h => hexact (hstep.1 h), hcount.trans hstep.2, fun j => ?_⟩
    rw [hpos]
    by_cases hj : j = i
    · subst hj
      rw [if_neg fun h => hfresh h.1]
      by_cases hlt : j.val < n
      · rw [if_pos hlt, if_pos ⟨mem_cons_self, hlt⟩, mark_pos, Function.update_self]
      · rw [if_neg hlt, if_neg fun h => hlt h.2]
    · have hother : (if i.val < n then t.mark i (mids i) (insts i) else t).pos j = t.pos j := by
        split_ifs
        · rw [mark_pos, Function.update_of_ne hj]
        · rfl
      rw [hother]
      simp only [mem_cons, hj, false_or]

/-- The PnL a position brings. -/
def pnlOf (p : Position) : Notional := p.realized + p.unrealized - p.fees

/-- Where nothing is converted the net PnL is the sum over the positions. -/
theorem netPnl_eq (hexact : v.positions.Exact) (hplain : v.positions.converting = false) :
    v.netPnl = (∑ i, pnlOf (v.positions.pos i)) + v.pnlCarry := by
  have hsum := hexact.summed.plain
  have hrealized : v.positions.totalRealized = ∑ i, (v.positions.pos i).realized := by
    unfold totalRealized
    rw [hplain]
    exact hsum .realized
  have hunrealized : v.positions.totalUnrealized = ∑ i, (v.positions.pos i).unrealized := by
    unfold totalUnrealized
    rw [hplain]
    exact hsum .unrealized
  have hfees : v.positions.totalFees = ∑ i, (v.positions.pos i).fees := by
    unfold totalFees
    rw [hplain]
    exact hsum .fees
  unfold netPnl pnlOf
  rw [hrealized, hunrealized, hfees, Finset.sum_sub_distrib, Finset.sum_add_distrib]

theorem markedAt_positions (v : RiskView) (mids : Fin kMaxInstruments → Price) :
    (v.markedAt mids).positions =
      markEach v.table.count v.table.inst mids (List.finRange kMaxInstruments) v.positions := by
  unfold markedAt
  dsimp only

/-- What the held positions lose from their marks to other mids, where both values fit. -/
theorem netPnl_markedAt (hexact : v.positions.Exact) (hplain : v.positions.converting = false)
    (hvalued : v.positions.Valued v.table.inst) (hmarks : v.ValuesFit)
    (mids : Fin kMaxInstruments → Price)
    (hmids : ∀ i ∈ v.held, ValueFits (v.positions.pos i) (mids i) (v.table.inst i)) :
    (v.markedAt mids).netPnl = v.netPnl - ∑ i ∈ v.held,
      lossFrom (v.positions.pos i) (v.table.inst i) (v.positions.pos i).lastMark (mids i) := by
  obtain ⟨hexact', hcount, hpos⟩ := markEach_spec v.table.count v.table.inst mids
    (nodup_finRange kMaxInstruments) v.positions
  rw [← markedAt_positions] at hexact' hcount hpos
  have hplain' : (v.markedAt mids).positions.converting = false := by
    unfold converting at hplain ⊢
    rw [hcount]
    exact hplain
  rw [netPnl_eq (hexact' hexact) hplain', netPnl_eq hexact hplain]
  have hterm : ∀ i, pnlOf ((v.markedAt mids).positions.pos i) =
      pnlOf (v.positions.pos i) - if i ∈ v.held then
        lossFrom (v.positions.pos i) (v.table.inst i) (v.positions.pos i).lastMark (mids i)
      else 0 := by
    intro i
    rw [hpos]
    simp only [mem_finRange, true_and]
    by_cases hheld : i ∈ v.held
    · obtain ⟨-, hlisted, -⟩ := Finset.mem_filter.mp hheld
      rw [if_pos hlisted, if_pos hheld]
      unfold pnlOf lossFrom
      rw [hvalued i, unrealizedAt_eq (hmids i hheld), hmarks.unrealizedAt_mark hheld]
      ring
    rw [if_neg hheld, sub_zero]
    split_ifs with hlisted
    · -- An instrument without a position is worth nothing at any mid.
      have hqty : (v.positions.pos i).qty = 0 := by
        by_contra hne
        exact hheld (Finset.mem_filter.mpr ⟨Finset.mem_univ i, hlisted, hne⟩)
      have hnone : ∀ m, revalue (v.positions.pos i) m (v.table.inst i) = 0 :=
        fun m => if_pos (Or.inl hqty)
      unfold pnlOf
      rw [hvalued i, hnone, hnone]
    · rfl
  rw [Finset.sum_congr rfl fun i _ => hterm i, Finset.sum_sub_distrib, Finset.sum_ite_mem,
    Finset.univ_inter]
  show _ + v.pnlCarry = _
  ring

end Marked

/-! ## No breach inside the bands -/

section Bands

variable {v : RiskView} {i : Fin kMaxInstruments}

/-- Where the far end of a long's band is no mid, either the position is worth its share at its
mark, and a nearer edge is searched for, or the lowest mid loses less than the share. -/
def LowMarksHold (v : RiskView) : Prop :=
  (v.held = ∅ → 0 < v.left) ∧
    (0 < v.share → (∀ i ∈ v.held, 0 < (v.positions.pos i).lastMark) → ∀ i ∈ v.held,
      0 < (v.positions.pos i).qty → (v.positions.pos i).lastMark < 16 →
        v.share ≤ unrealizedAt (v.positions.pos i) (v.positions.pos i).lastMark (v.table.inst i) ∨
          lossFrom (v.positions.pos i) (v.table.inst i) (v.positions.pos i).lastMark 1 < v.share)

theorem lossFrom_zero (p : Position) (inst : Instrument) (mark : Int) :
    lossFrom p inst mark 0 = unrealizedAt p mark inst := by
  have hnone : unrealizedAt p 0 inst = 0 := if_pos (Or.inr (le_refl _))
  unfold lossFrom
  rw [hnone, sub_zero]

/-- The shares of the held instruments fit what is left. -/
theorem card_mul_share_le (hheld : v.held.Nonempty) (hshare : 0 < v.share) :
    v.held.card * v.share ≤ v.left := by
  have hcard : (v.held.card : Int) ≠ 0 := by
    have hpos := Finset.card_pos.mpr hheld
    omega
  unfold share at hshare ⊢
  by_cases hleft : 0 < v.left
  · rw [if_pos hleft, Int.tdiv_eq_ediv_of_nonneg hleft.le]
    exact Int.mul_ediv_self_le hcard
  · rw [if_neg hleft] at hshare
    exact absurd hshare (lt_irrefl _)

section

variable (hlimit : 0 < v.maxLoss) (hlive : v.killed = false) (hi : i ∈ v.held)
include hlimit hlive hi

/-- The band of a held instrument while the limit is on. -/
theorem band_of_held :
    v.band i =
      if v.share ≤ 0 ∨ ¬ 0 < (v.positions.pos i).lastMark then (kAbove, kAbove)
      else if 0 < (v.positions.pos i).qty then
        (bandEdge (v.positions.pos i) (v.table.inst i) (v.positions.pos i).lastMark
          (bandEnd true (v.positions.pos i).lastMark) v.share, kAbove)
      else (kBelow, bandEdge (v.positions.pos i) (v.table.inst i) (v.positions.pos i).lastMark
        (bandEnd false (v.positions.pos i).lastMark) v.share) := by
  have hoff : ¬ (¬ 0 < v.maxLoss ∨ v.killed = true ∨ i ∉ v.held) := by
    rintro (hno | hkilled | hnot)
    · exact hno hlimit
    · rw [hlive] at hkilled
      exact Bool.false_ne_true hkilled
    · exact hnot hi
  exact if_neg hoff

/-- A mid within a held instrument's band: there is a share, and the instrument has a mark. -/
theorem share_pos_of_inside
    {mid : Price} (hin : (v.band i).1 < mid ∧ mid < (v.band i).2) :
    0 < v.share ∧ 0 < (v.positions.pos i).lastMark := by
  rw [band_of_held hlimit hlive hi] at hin
  by_cases hempty : v.share ≤ 0 ∨ ¬ 0 < (v.positions.pos i).lastMark
  · rw [if_pos hempty] at hin
    exact absurd (hin.1.trans hin.2) (lt_irrefl _)
  · obtain ⟨hshare, hmark⟩ := not_or.mp hempty
    exact ⟨not_le.mp hshare, not_not.mp hmark⟩

/-- Within its band a held instrument loses less than its share. -/
theorem lossFrom_lt_share (hmult : 0 < (v.table.inst i).contractMultiplier) (hfits : v.ValuesFit)
    {mid : Price} (hmid : 0 < mid) (hvalue : ValueFits (v.positions.pos i) mid (v.table.inst i))
    (hlow : 0 < (v.positions.pos i).qty → (v.positions.pos i).lastMark < 16 →
      v.share ≤ unrealizedAt (v.positions.pos i) (v.positions.pos i).lastMark (v.table.inst i) ∨
        lossFrom (v.positions.pos i) (v.table.inst i) (v.positions.pos i).lastMark 1 < v.share)
    (hin : (v.band i).1 < mid ∧ mid < (v.band i).2) :
    lossFrom (v.positions.pos i) (v.table.inst i) (v.positions.pos i).lastMark mid < v.share := by
  obtain ⟨hshare, hmark⟩ := share_pos_of_inside hlimit hlive hi hin
  obtain ⟨hat, hend⟩ := hfits i hi hmark
  have hend := hend hshare
  rw [band_of_held hlimit hlive hi,
    if_neg (not_or.mpr ⟨not_le.mpr hshare, not_not.mpr hmark⟩)] at hin
  split_ifs at hin with hlong
  · have hstop : bandEnd true (v.positions.pos i).lastMark =
        (v.positions.pos i).lastMark / 16 := Int.tdiv_eq_ediv_of_nonneg hmark.le
    rw [hstop] at hin
    rw [decide_eq_true hlong, hstop] at hend
    refine lossFrom_lt_of_long hmult hmark hshare hmid hat hend hvalue hlong
      (Int.ediv_nonneg hmark.le (by decide)) (Int.ediv_lt_self_of_pos_of_ne_one hmark (by decide))
      (fun hzero => ?_) hin.1
    rw [lossFrom_zero]
    have hlt : ∀ m : Int, m / 16 = 0 → m < 16 := fun m hm => by omega
    exact hlow hlong (hlt _ hzero)
  · have hqty : (v.positions.pos i).qty < 0 :=
      lt_of_le_of_ne (not_lt.mp hlong) (Finset.mem_filter.mp hi).2.2
    rw [decide_eq_false hlong] at hend
    exact lossFrom_lt_of_short hmult hmark hshare hmid hat hend hvalue hqty hin.2

end

section

variable (hexact : v.positions.Exact) (hplain : v.positions.converting = false)
variable (hvalued : v.positions.Valued v.table.inst) (hfits : v.ValuesFit)
include hexact hplain hvalued hfits

/-- Where low marks hold, mids within the bands leave the net PnL above the limit. -/
theorem noBreach_of_lowMarks
    (hmult : ∀ i, i.val < v.table.count → 0 < (v.table.inst i).contractMultiplier)
    (hlimit : 0 < v.maxLoss) (hlive : v.killed = false) (hlow : v.LowMarksHold) :
    v.NoBreachInside := by
  intro mids hmids hvalues hin
  rw [netPnl_markedAt hexact hplain hvalued hfits mids hvalues]
  have hsum : ∑ i ∈ v.held, lossFrom (v.positions.pos i) (v.table.inst i)
      (v.positions.pos i).lastMark (mids i) < v.left := by
    rcases v.held.eq_empty_or_nonempty with hnone | hsome
    · rw [hnone, Finset.sum_empty]
      exact hlow.1 hnone
    have hmarked : ∀ i ∈ v.held, 0 < v.share ∧ 0 < (v.positions.pos i).lastMark := fun i hi =>
      share_pos_of_inside hlimit hlive hi (hin i hi)
    have hshare : 0 < v.share := (hmarked _ hsome.choose_spec).1
    have hloss : ∀ i ∈ v.held, lossFrom (v.positions.pos i) (v.table.inst i)
        (v.positions.pos i).lastMark (mids i) < v.share := by
      intro i hi
      have hlisted := (Finset.mem_filter.mp hi).2.1
      exact lossFrom_lt_share hlimit hlive hi (hmult i hlisted) hfits (hmids i hlisted)
        (hvalues i hi) (hlow.2 hshare (fun j hj => (hmarked j hj).2) i hi) (hin i hi)
    calc ∑ i ∈ v.held, lossFrom (v.positions.pos i) (v.table.inst i)
          (v.positions.pos i).lastMark (mids i)
        < ∑ _i ∈ v.held, v.share := Finset.sum_lt_sum_of_nonempty hsome hloss
      _ = v.held.card * v.share := by rw [Finset.sum_const, nsmul_eq_mul]
      _ ≤ v.left := card_mul_share_le hsome hshare
  unfold left at hsum
  exact neg_lt_sub_iff_lt_add'.mpr (by linarith)

/-- With one position or none, mids within the bands leave the net PnL above the limit only where
low marks hold. -/
theorem lowMarks_of_noBreach
    (hlimit : 0 < v.maxLoss) (hlive : v.killed = false) (hone : v.held.card ≤ 1)
    (hsafe : v.NoBreachInside) : v.LowMarksHold := by
  have hnet := fun hvalues hin => (netPnl_markedAt hexact hplain hvalued hfits (fun _ => 1) hvalues)
    ▸ hsafe (fun _ => 1) (fun _ _ => Int.one_pos) hvalues hin
  refine ⟨fun hnone => ?_, fun hshare hmarks i hi hlong hmark => ?_⟩
  · have hempty : ∀ i, i ∉ v.held := fun i => hnone ▸ Finset.notMem_empty i
    have hnet := hnet (fun i hi => absurd hi (hempty i)) fun i hi => absurd hi (hempty i)
    rw [hnone, Finset.sum_empty] at hnet
    unfold left
    linarith
  by_contra hbad
  obtain ⟨hworth, hlow⟩ := not_or.mp hbad
  have hheld : v.held = {i} := Finset.eq_singleton_iff_unique_mem.mpr
    ⟨hi, fun j hj => Finset.card_le_one.mp hone j hj i hi⟩
  have hzero : bandEnd true (v.positions.pos i).lastMark = 0 := by
    have hdiv : ∀ m : Int, 0 < m → m < 16 → m.tdiv 16 = 0 := by
      intro m hm hlt
      rw [Int.tdiv_eq_ediv_of_nonneg hm.le]
      omega
    exact hdiv _ (hmarks i hi) hmark
  have hvalues : ∀ j ∈ v.held, ValueFits (v.positions.pos j) 1 (v.table.inst j) := by
    intro j hj
    rw [hheld, Finset.mem_singleton] at hj
    have hend := (hfits i hi (hmarks i hi)).2 hshare
    rw [decide_eq_true hlong, hzero, max_eq_left Int.one_pos.le] at hend
    exact hj ▸ hend
  -- The far end is taken: no mid is valued below the mark.
  have hedge : bandEdge (v.positions.pos i) (v.table.inst i) (v.positions.pos i).lastMark 0
      v.share = 0 := by
    unfold bandEdge
    simp only
    rw [lossFrom_zero]
    exact if_pos (not_le.mp hworth)
  have hinside : ∀ j ∈ v.held, (v.band j).1 < 1 ∧ 1 < (v.band j).2 := by
    intro j hj
    rw [hheld, Finset.mem_singleton] at hj
    rw [hj, band_of_held hlimit hlive hi,
      if_neg (not_or.mpr ⟨not_le.mpr hshare, not_not.mpr (hmarks i hi)⟩), if_pos hlong, hzero,
      hedge]
    exact ⟨Int.one_pos, by decide⟩
  have hleft : v.share = v.left := by
    unfold share at hshare ⊢
    by_cases hpos : 0 < v.left
    · rw [if_pos hpos, hheld, Finset.card_singleton, Nat.cast_one, Int.tdiv_one]
    · rw [if_neg hpos] at hshare
      exact absurd hshare (lt_irrefl _)
  have hnet := hnet hvalues hinside
  rw [hheld, Finset.sum_singleton] at hnet
  have hle := not_lt.mp hlow
  rw [hleft] at hle
  unfold left at hle
  linarith

end

end Bands

/-- A thousand bought at a hundred raw units, marked. -/
def boughtAt (mark : Price) (maxLoss : Notional) : RiskView where
  table := { count := 1, count_le := Nat.pos_of_neZero _, inst := fun _ => {} }
  positions := PositionTracker.run [.onFill 0 .buy 100 100000000000 0 {}, .mark 0 mark {}]
  maxLoss := maxLoss

theorem held_boughtAt (mark : Price) (maxLoss : Notional) : (boughtAt mark maxLoss).held = {0} := by
  ext i
  rw [Finset.mem_singleton]
  constructor
  · intro hi
    have hlt : i.val < 1 := (Finset.mem_filter.mp hi).2.1
    exact Fin.ext (Nat.lt_one_iff.mp hlt)
  · rintro rfl
    have hqty : ((boughtAt mark maxLoss).positions.pos 0).qty = 100000000000 := rfl
    refine Finset.mem_filter.mpr ⟨Finset.mem_univ _, Nat.one_pos, ?_⟩
    rw [hqty]
    decide

theorem boughtAt_of (mark : Price) (maxLoss : Notional) :
    ∀ op ∈ [.onFill 0 .buy 100 100000000000 0 {}, .mark 0 mark {}],
      PositionTracker.Op.Of (boughtAt mark maxLoss).table.inst op := by
  intro op hop
  rcases mem_pair.mp hop with rfl | rfl
  · rfl
  · rfl

theorem valuesFit_boughtAt {mark : Price} {maxLoss : Notional}
    (hat : ValueFits ((boughtAt mark maxLoss).positions.pos 0) mark {})
    (hend : ValueFits ((boughtAt mark maxLoss).positions.pos 0) (max 1 (bandEnd true mark)) {}) :
    (boughtAt mark maxLoss).ValuesFit := by
  intro i hi _
  rw [held_boughtAt, Finset.mem_singleton] at hi
  subst hi
  exact ⟨hat, fun _ => hend⟩

end RiskView

end FastMM
