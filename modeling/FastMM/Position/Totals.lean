/-
  Position/Totals.lean --- the tracker's totals are the sums they cache.

  Every total is moved by deltas in eight operations.  `Changed` says what an
  update of one instrument did to all of them at once: the terms of the
  instrument, the plain totals, the totals of its currency and the converted ones.
  Each operation on an instrument is a chain of such changes; a new plan rebuilds
  the currencies' totals and a new rate takes one currency's converted values
  again.
-/
import FastMM.Position.Tracker
import FastMM.Foundation.Sums
import Mathlib.Algebra.BigOperators.Fin
import Mathlib.Tactic.Linarith
import Mathlib.Tactic.Ring
set_option autoImplicit false

namespace FastMM

open Function FxRate List Totals

namespace PositionTracker

/-! ## The terms of the totals -/

variable (t : PositionTracker)
variable (c : Fin kMaxCurrencies)
variable (f : TotalsField)

/-- The term of one instrument in one total. -/
def value (i : Fin kMaxInstruments) : Notional :=
  match f with
  | .realized => (t.pos i).realized
  | .unrealized => (t.pos i).unrealized
  | .fees => (t.pos i).fees
  | .gross => absRaw (t.exposure i)
  | .net => t.exposure i

/-- The cached total of a field, without conversion. -/
def plain : TotalsField → Notional
  | .realized => t.realizedTotal
  | .unrealized => t.unrealizedTotal
  | .fees => t.feesTotal
  | .gross => t.grossExposure_
  | .net => t.netExposure_

/-- The converted values and their totals are those of the native totals at the
rates. -/
structure ConvExact (t : PositionTracker) : Prop where
  conv : ∀ c f, (t.conv c).get f = convert ((t.native_ c).get f) (t.rate_ c)
  total : ∀ f, t.convTotal.get f = ∑ c, (t.conv c).get f

/-- Every total in the instruments' own currencies is the sum it caches. -/
structure Summed (t : PositionTracker) : Prop where
  plain : ∀ f, t.plain f = ∑ i, t.value f i
  funding : t.fund.total = ∑ i, t.fund.per i
  native : ∀ f c, (t.native_ c).get f =
    if t.converting then ∑ i, if t.ccy i = c then t.value f i else 0 else 0
  nativeFunding : t.converting = true →
    ∀ c, t.fund.native c = ∑ i, if t.ccy i = c then t.fund.per i else 0
  count_le : t.ccyCount ≤ kMaxCurrencies
  ccy_lt : t.converting = true → ∀ i, (t.ccy i).val < t.ccyCount

/-- Every total is the sum it caches. -/
structure Exact (t : PositionTracker) : Prop where
  summed : Summed t
  conv : ConvExact t

/-! ## Converted totals -/

theorem convert_zero (r : FxRate) : convert 0 r = 0 := by
  unfold convert
  split <;> simp

theorem convertAgain_conv (c d : Fin kMaxCurrencies) (f g : TotalsField) :
    ((t.convertAgain c f).conv d).get g =
      if d = c ∧ g = f then convert ((t.native_ c).get f) (t.rate_ c)
      else (t.conv d).get g := by
  unfold convertAgain
  by_cases hd : d = c
  · subst hd
    simp [get_put]
  · simp [hd]

/-- A converted total moves by the change of the one converted value. -/
theorem convertAgain_total {t : PositionTracker}
    (h : ∀ f, t.convTotal.get f = ∑ c, (t.conv c).get f) (c : Fin kMaxCurrencies)
    (f g : TotalsField) :
    (t.convertAgain c f).convTotal.get g = ∑ d, ((t.convertAgain c f).conv d).get g := by
  have hsum : (∑ d, ((t.convertAgain c f).conv d).get g) + (t.conv c).get g =
      (∑ d, (t.conv d).get g) + ((t.convertAgain c f).conv c).get g := by
    apply Foundation.sum_add_eq_of_agree_off (Finset.mem_univ c)
    intro d _ hd
    rw [convertAgain_conv, if_neg (fun hh => hd hh.1)]
  have hleft : (t.convertAgain c f).convTotal.get g =
      if g = f then t.convTotal.get f +
        (convert ((t.native_ c).get f) (t.rate_ c) - (t.conv c).get f)
      else t.convTotal.get g := by
    simp [convertAgain, get_put]
  rw [convertAgain_conv, ← h g] at hsum
  rw [hleft]
  by_cases hg : g = f
  · subst hg
    simp only [true_and, if_true] at hsum ⊢
    linarith
  · simp only [hg, and_false, if_false] at hsum ⊢
    linarith

@[simp] theorem convertAgain_native : (t.convertAgain c f).native_ = t.native_ := rfl

@[simp] theorem convertAgain_rate : (t.convertAgain c f).rate_ = t.rate_ := rfl

/-- Taking the values of one currency again makes them exact, whatever they were,
and leaves the others. -/
theorem reconvert_convExact {t : PositionTracker} {c : Fin kMaxCurrencies}
    (hother : ∀ d, d ≠ c → ∀ f, (t.conv d).get f = convert ((t.native_ d).get f) (t.rate_ d))
    (htotal : ∀ f, t.convTotal.get f = ∑ c, (t.conv c).get f) :
    ConvExact (t.reconvert c) := by
  constructor
  · intro d f
    by_cases hd : d = c
    · subst hd
      cases f <;> simp [reconvert, convertAgain_conv]
    · simp only [reconvert, foldl_cons, foldl_nil, convertAgain_conv, hd, false_and,
        if_false, convertAgain_native, convertAgain_rate]
      exact hother d hd f
  · unfold reconvert
    simp only [foldl_cons, foldl_nil]
    apply convertAgain_total
    intro f
    apply convertAgain_total
    intro f
    apply convertAgain_total
    intro f
    apply convertAgain_total
    intro f
    apply convertAgain_total
    exact htotal

/-! ## Changes of one instrument -/

/-- `t'` is `t` after changes on the instrument `id`: its term in the total `f`
moved by `d f`, its funding by `e`, and every cached total with it. -/
structure Changed (t t' : PositionTracker) (id : Fin kMaxInstruments)
    (d : TotalsField → Notional) (e : Notional) : Prop where
  value : ∀ f i, t'.value f i = t.value f i + if i = id then d f else 0
  plain : ∀ f, t'.plain f = t.plain f + d f
  native : ∀ f c, (t'.native_ c).get f =
    (t.native_ c).get f + if t.converting = true ∧ t.ccy id = c then d f else 0
  conv : ConvExact t → ConvExact t'
  count : t'.ccyCount = t.ccyCount
  ccy : t'.ccy = t.ccy
  rate : t'.rate_ = t.rate_
  fundPer : ∀ i, t'.fund.per i = t.fund.per i + if i = id then e else 0
  fundTotal : t'.fund.total = t.fund.total + e
  fundNative : ∀ c, t'.fund.native c =
    t.fund.native c + if t.converting = true ∧ t.ccy id = c then e else 0

/-- A term moved by `x` moves the sum by `x`. -/
theorem sum_add_single (g : Fin kMaxInstruments → Notional) (id : Fin kMaxInstruments)
    (x : Notional) : ∑ i, (g i + if i = id then x else 0) = (∑ i, g i) + x := by
  rw [Finset.sum_add_distrib, Finset.sum_ite_eq' Finset.univ id (fun _ => x)]
  simp

/-- A term moved by `x` moves the sum over its currency by `x`, and no other. -/
theorem sum_add_single_of (p : Fin kMaxInstruments → Prop) [DecidablePred p]
    (g : Fin kMaxInstruments → Notional) (id : Fin kMaxInstruments) (x : Notional) :
    (∑ i, if p i then g i + (if i = id then x else 0) else 0) =
      (∑ i, if p i then g i else 0) + if p id then x else 0 := by
  have hterm : ∀ i, (if p i then g i + (if i = id then x else 0) else 0) =
      (if p i then g i else 0) + if i = id then (if p id then x else 0) else 0 := by
    intro i
    by_cases hi : i = id
    · subst hi
      by_cases hp : p i <;> simp [hp]
    · by_cases hp : p i <;> simp [hp, hi]
  rw [Finset.sum_congr rfl (fun i _ => hterm i), sum_add_single]

namespace Changed

variable {t t' t'' : PositionTracker} {id : Fin kMaxInstruments}
  {d d' : TotalsField → Notional} {e e' : Notional}

theorem converting_eq (h : Changed t t' id d e) : t'.converting = t.converting := by
  unfold converting
  rw [h.count]

/-- The totals follow the terms. -/
theorem summed (h : Changed t t' id d e) (ht : Summed t) : Summed t' where
  plain f := by
    rw [h.plain, ht.plain, ← sum_add_single]
    exact Finset.sum_congr rfl (fun i _ => (h.value f i).symm)
  funding := by
    rw [h.fundTotal, ht.funding, ← sum_add_single]
    exact Finset.sum_congr rfl (fun i _ => (h.fundPer i).symm)
  native f c := by
    rw [h.native, ht.native, h.converting_eq, h.ccy]
    cases hc : t.converting with
    | false => simp
    | true =>
      simp only [if_true, true_and]
      rw [← sum_add_single_of]
      refine Finset.sum_congr rfl ?_
      intro i _
      rw [h.value]
  nativeFunding hc c := by
    rw [h.converting_eq] at hc
    rw [h.fundNative, ht.nativeFunding hc, h.ccy]
    simp only [hc, true_and]
    rw [← sum_add_single_of]
    refine Finset.sum_congr rfl ?_
    intro i _
    rw [h.fundPer]
  count_le := by
    rw [h.count]
    exact ht.count_le
  ccy_lt hc i := by
    rw [h.converting_eq] at hc
    rw [h.ccy, h.count]
    exact ht.ccy_lt hc i

theorem trans (h : Changed t t' id d e) (h' : Changed t' t'' id d' e') :
    Changed t t'' id (fun f => d f + d' f) (e + e') where
  value f i := by
    rw [h'.value, h.value]
    split <;> ring
  plain f := by rw [h'.plain, h.plain, add_assoc]
  native f c := by
    rw [h'.native, h.native, h.converting_eq, h.ccy]
    split <;> ring
  conv hc := h'.conv (h.conv hc)
  count := h'.count.trans h.count
  ccy := h'.ccy.trans h.ccy
  rate := h'.rate.trans h.rate
  fundPer i := by
    rw [h'.fundPer, h.fundPer]
    split <;> ring
  fundTotal := by rw [h'.fundTotal, h.fundTotal, add_assoc]
  fundNative c := by
    rw [h'.fundNative, h.fundNative, h.converting_eq, h.ccy]
    split <;> ring

end Changed

/-- A change of nothing the totals cover. -/
theorem Changed.silent {t t' : PositionTracker} (id : Fin kMaxInstruments)
    (hvalue : ∀ f i, t'.value f i = t.value f i) (hplain : ∀ f, t'.plain f = t.plain f)
    (hnative : t'.native_ = t.native_) (hconv : t'.conv = t.conv)
    (htotal : t'.convTotal = t.convTotal) (hcount : t'.ccyCount = t.ccyCount)
    (hccy : t'.ccy = t.ccy) (hrate : t'.rate_ = t.rate_) (hfund : t'.fund = t.fund) :
    Changed t t' id (fun _ => 0) 0 where
  value f i := by simp [hvalue]
  plain f := by simp [hplain]
  native f c := by simp [hnative]
  conv hc := by
    constructor
    · intro c f
      rw [hconv, hnative, hrate]
      exact hc.conv c f
    · intro f
      rw [htotal, hconv]
      exact hc.total f
  count := hcount
  ccy := hccy
  rate := hrate
  fundPer i := by simp [hfund]
  fundTotal := by simp [hfund]
  fundNative c := by simp [hfund]

theorem bump_changed (t : PositionTracker) (id : Fin kMaxInstruments) :
    Changed t t.bump id (fun _ => 0) 0 := by
  apply Changed.silent id <;> intros <;> rfl

/-- Writing the parts of a position no total covers. -/
theorem setPos_changed (t : PositionTracker) (id : Fin kMaxInstruments) {p : Position}
    (hr : p.realized = (t.pos id).realized) (hu : p.unrealized = (t.pos id).unrealized)
    (hf : p.fees = (t.pos id).fees) : Changed t (t.setPos id p) id (fun _ => 0) 0 := by
  apply Changed.silent id
  · intro f i
    by_cases hi : i = id
    · subst hi
      cases f <;> simp [value, setPos, hr, hu, hf]
    · cases f <;> simp [value, setPos, update_of_ne hi]
  · intro f
    rfl
  all_goals rfl

/-! ## Booking one total -/

section Book

variable (t : PositionTracker) (id : Fin kMaxInstruments) (f : TotalsField) (d : Notional)

@[simp] theorem book_exposure : (t.book id f d).exposure = t.exposure := by
  unfold book
  split <;> rfl

@[simp] theorem book_plain (g : TotalsField) : (t.book id f d).plain g = t.plain g := by
  unfold book
  split <;> rfl

@[simp] theorem book_ccyCount : (t.book id f d).ccyCount = t.ccyCount := by
  unfold book
  split <;> rfl

@[simp] theorem book_ccy : (t.book id f d).ccy = t.ccy := by
  unfold book
  split <;> rfl

@[simp] theorem book_rate : (t.book id f d).rate_ = t.rate_ := by
  unfold book
  split <;> rfl

@[simp] theorem book_fund : (t.book id f d).fund = t.fund := by
  unfold book
  split <;> rfl

@[simp] theorem book_converting : (t.book id f d).converting = t.converting := by
  unfold converting
  rw [book_ccyCount]

theorem book_native (g : TotalsField) (c : Fin kMaxCurrencies) :
    ((t.book id f d).native_ c).get g = (t.native_ c).get g +
      if t.converting = true ∧ t.ccy id = c then (if g = f then d else 0) else 0 := by
  unfold book
  cases hc : t.converting with
  | false => simp
  | true =>
    simp only [if_true, bookConverted, convertAgain_native, true_and]
    by_cases hcc : t.ccy id = c
    · subst hcc
      rw [update_self, get_put]
      by_cases hg : g = f
      · simp [hg]
      · simp [hg]
    · rw [update_of_ne (Ne.symm hcc)]
      simp [hcc]

theorem book_convExact {t : PositionTracker} (h : ConvExact t) : ConvExact (t.book id f d) := by
  unfold book
  cases hc : t.converting with
  | false => simpa using h
  | true =>
    simp only [if_true, bookConverted]
    constructor
    · intro c g
      rw [convertAgain_conv, convertAgain_native, convertAgain_rate]
      split_ifs with hcg
      · rw [hcg.1, hcg.2]
      -- Off the one booked total the native value is the old one.
      have hsame : (update t.native_ (t.ccy id)
          ((t.native_ (t.ccy id)).put f ((t.native_ (t.ccy id)).get f + d)) c).get g =
            (t.native_ c).get g := by
        by_cases hcc : c = t.ccy id
        · subst hcc
          rw [update_self, get_put, if_neg (fun hg => hcg ⟨rfl, hg⟩)]
        · rw [update_of_ne hcc]
      rw [hsame]
      exact h.conv c g
    · intro g
      apply convertAgain_total
      exact h.total

end Book

variable (p : Position)

/-- One term moved, and its total booked. -/
theorem changed_of_book {t s : PositionTracker} (id : Fin kMaxInstruments) (f : TotalsField)
    (x : Notional) (hvalue : ∀ g i, s.value g i =
      t.value g i + if i = id then (if g = f then x else 0) else 0)
    (hplain : ∀ g, s.plain g = t.plain g + if g = f then x else 0)
    (hnative : s.native_ = t.native_) (hconv : s.conv = t.conv)
    (htotal : s.convTotal = t.convTotal) (hcount : s.ccyCount = t.ccyCount)
    (hccy : s.ccy = t.ccy) (hrate : s.rate_ = t.rate_) (hfund : s.fund = t.fund) :
    Changed t (s.book id f x) id (fun g => if g = f then x else 0) 0 where
  value g i := by
    have hsame : (s.book id f x).value g i = s.value g i := by
      cases g <;> simp [value]
    rw [hsame, hvalue]
  plain g := by rw [book_plain, hplain]
  native g c := by
    have hconverting : s.converting = t.converting := by
      unfold converting
      rw [hcount]
    rw [book_native, hnative, hccy, hconverting]
  conv hc := by
    apply book_convExact
    constructor
    · intro c g
      rw [hconv, hnative, hrate]
      exact hc.conv c g
    · intro g
      rw [htotal, hconv]
      exact hc.total g
  count := by rw [book_ccyCount, hcount]
  ccy := by rw [book_ccy, hccy]
  rate := by rw [book_rate, hrate]
  fundPer i := by simp [hfund]
  fundTotal := by simp [hfund]
  fundNative c := by simp [hfund]

theorem addRealized_changed (t : PositionTracker) (id : Fin kMaxInstruments) (r : Notional) :
    Changed t (t.addRealized id r) id (fun g => if g = .realized then r else 0) 0 := by
  apply changed_of_book
  · intro g i
    by_cases hi : i = id
    · subst hi
      cases g <;> simp [value, setPos]
    · cases g <;> simp [value, setPos, hi]
  · intro g
    cases g <;> simp [plain, setPos]
  all_goals rfl

theorem addFees_changed (t : PositionTracker) (id : Fin kMaxInstruments) (fee : Notional) :
    Changed t (t.addFees id fee) id (fun g => if g = .fees then fee else 0) 0 := by
  apply changed_of_book
  · intro g i
    by_cases hi : i = id
    · subst hi
      cases g <;> simp [value, setPos]
    · cases g <;> simp [value, setPos, hi]
  · intro g
    cases g <;> simp [plain, setPos]
  all_goals rfl

theorem addFunding_changed (t : PositionTracker) (id : Fin kMaxInstruments) (amount : Notional) :
    Changed t (t.addFunding id amount) id (fun _ => 0) amount where
  value f i := by cases f <;> simp [value, addFunding]
  plain f := by cases f <;> simp [plain, addFunding]
  native f c := by simp [addFunding]
  conv hc := ⟨hc.conv, hc.total⟩
  count := rfl
  ccy := rfl
  rate := rfl
  fundPer i := by
    by_cases hi : i = id
    · subst hi
      simp [addFunding]
    · simp [addFunding, hi]
  fundTotal := rfl
  fundNative c := by
    cases hconverting : t.converting with
    | false => simp [addFunding, hconverting]
    | true =>
      by_cases hc : t.ccy id = c
      · subst hc
        simp [addFunding, hconverting]
      · simp [addFunding, hconverting, hc, update_of_ne (Ne.symm hc)]

theorem setUnrealized_changed (t : PositionTracker) (id : Fin kMaxInstruments) (u : Notional) :
    Changed t (t.setUnrealized id u) id
      (fun g => if g = .unrealized then u - (t.pos id).unrealized else 0) 0 := by
  -- The total is booked before the position is written; the two writes commute.
  have hbook : t.setUnrealized id u =
      ({ t with
          unrealizedTotal := t.unrealizedTotal + (u - (t.pos id).unrealized)
          pos := update t.pos id { t.pos id with unrealized := u } } :
        PositionTracker).book id .unrealized (u - (t.pos id).unrealized) := by
    by_cases hc : 1 < t.ccyCount <;> simp [setUnrealized, setPos, book, converting, hc]
    rfl
  rw [hbook]
  apply changed_of_book
  · intro g i
    by_cases hi : i = id
    · subst hi
      cases g <;> simp [value]
    · cases g <;> simp [value, hi]
  · intro g
    cases g <;> simp [plain]
  all_goals rfl

theorem setExposure_changed (t : PositionTracker) (id : Fin kMaxInstruments) (x : Notional) :
    Changed t (t.setExposure id x) id (fun g => match g with
        | .gross => absRaw x - absRaw (t.exposure id)
        | .net => x - t.exposure id
        | _ => 0) 0 where
  value g i := by
    by_cases hi : i = id
    · subst hi
      cases g <;> simp [value, setExposure, moveExposure]
    · cases g <;> simp [value, setExposure, moveExposure, hi]
  plain g := by
    have hplain : (t.setExposure id x).plain g = (((t.moveExposure
        (absRaw x - absRaw (t.exposure id)) (x - t.exposure id)).book id .gross
        (absRaw x - absRaw (t.exposure id))).book id .net (x - t.exposure id)).plain g := by
      cases g <;> rfl
    rw [hplain, book_plain, book_plain]
    cases g <;> simp [plain, moveExposure]
  native g c := by
    have hnative : ((t.setExposure id x).native_ c).get g = _ :=
      book_native _ id .net (x - t.exposure id) g c
    rw [hnative, book_native, book_converting, book_ccy]
    have hccy : (t.moveExposure (absRaw x - absRaw (t.exposure id)) (x - t.exposure id)).ccy =
        t.ccy := rfl
    have hconverting : (t.moveExposure (absRaw x - absRaw (t.exposure id))
        (x - t.exposure id)).converting = t.converting := rfl
    rw [hccy, hconverting]
    by_cases hc : t.converting = true ∧ t.ccy id = c
    · rw [if_pos hc, if_pos hc, if_pos hc]
      cases g <;> simp [moveExposure]
    · rw [if_neg hc, if_neg hc, if_neg hc]
      simp [moveExposure]
  conv hc := by
    have hc' : ConvExact (t.moveExposure (absRaw x - absRaw (t.exposure id))
        (x - t.exposure id)) := ⟨hc.conv, hc.total⟩
    have hbooked := book_convExact id .net (x - t.exposure id)
      (book_convExact id .gross (absRaw x - absRaw (t.exposure id)) hc')
    exact ⟨hbooked.conv, hbooked.total⟩
  count := by simp [setExposure, moveExposure]
  ccy := by simp [setExposure, moveExposure]
  rate := by simp [setExposure, moveExposure]
  fundPer i := by simp [setExposure, moveExposure]
  fundTotal := by simp [setExposure, moveExposure]
  fundNative c := by simp [setExposure, moveExposure]

/-! ## The operations as changes -/

/-- Some change of one instrument. -/
def Touches (t t' : PositionTracker) (id : Fin kMaxInstruments) : Prop :=
  ∃ d e, Changed t t' id d e

theorem Changed.touches {t t' : PositionTracker} {id : Fin kMaxInstruments}
    {d : TotalsField → Notional} {e : Notional} (h : Changed t t' id d e) : Touches t t' id :=
  ⟨d, e, h⟩

@[simp] theorem closedPosition_realized (f : Int) (px : Price) (closed : Int) :
    (closedPosition p f px closed).realized = p.realized := by
  unfold closedPosition
  dsimp only
  split <;> rfl

@[simp] theorem closedPosition_unrealized (f : Int) (px : Price) (closed : Int) :
    (closedPosition p f px closed).unrealized = p.unrealized := by
  unfold closedPosition
  dsimp only
  split <;> rfl

@[simp] theorem closedPosition_fees (f : Int) (px : Price) (closed : Int) :
    (closedPosition p f px closed).fees = p.fees := by
  unfold closedPosition
  dsimp only
  split <;> rfl

namespace Touches

variable {t s : PositionTracker} {id : Fin kMaxInstruments}

theorem refl (t : PositionTracker) (id : Fin kMaxInstruments) : Touches t t id :=
  ⟨fun _ => 0, 0, Changed.silent id (fun _ _ => rfl) (fun _ => rfl) rfl rfl rfl rfl rfl rfl rfl⟩

section

variable (h : Touches t s id)
include h

theorem trans {u : PositionTracker} (h' : Touches s u id) :
    Touches t u id := by
  obtain ⟨d, e, h⟩ := h
  obtain ⟨d', e', h'⟩ := h'
  exact (h.trans h').touches

theorem bump : Touches t s.bump id :=
  h.trans (bump_changed s id).touches

theorem setPos {p : Position} (hr : p.realized = (s.pos id).realized)
    (hu : p.unrealized = (s.pos id).unrealized) (hf : p.fees = (s.pos id).fees) :
    Touches t (s.setPos id p) id :=
  h.trans (setPos_changed s id hr hu hf).touches

theorem addRealized (r : Notional) : Touches t (s.addRealized id r) id :=
  h.trans (addRealized_changed s id r).touches

theorem addFees (fee : Notional) : Touches t (s.addFees id fee) id :=
  h.trans (addFees_changed s id fee).touches

theorem addFunding (amount : Notional) :
    Touches t (s.addFunding id amount) id :=
  h.trans (addFunding_changed s id amount).touches

theorem setUnrealized (u : Notional) : Touches t (s.setUnrealized id u) id :=
  h.trans (setUnrealized_changed s id u).touches

theorem setExposure (x : Notional) : Touches t (s.setExposure id x) id :=
  h.trans (setExposure_changed s id x).touches

theorem mark (mid : Price) (inst : Instrument) :
    Touches t (s.mark id mid inst) id := by
  apply Touches.setExposure
  apply Touches.setUnrealized
  apply h.setPos <;> rfl

theorem addToPosition (f : Int) (px : Price) (inst : Instrument) :
    Touches t (s.addToPosition id f px inst) id := by
  apply h.setPos <;> rfl

theorem takeFromPosition (f : Int) (px : Price) (inst : Instrument) :
    Touches t (s.takeFromPosition id f px inst) id := by
  apply (h.addRealized _).setPos
  · exact closedPosition_realized _ f px _
  · exact closedPosition_unrealized _ f px _
  · exact closedPosition_fees _ f px _

theorem valueAgain (px : Price) (inst : Instrument) :
    Touches t (s.valueAgain id px inst) id := by
  unfold PositionTracker.valueAgain
  split
  · exact h.mark _ inst
  · exact h.setExposure _

end

end Touches

theorem onFill_touches (t : PositionTracker) (id : Fin kMaxInstruments) (side : Side)
    (px : Price) (qty : Qty) (fee : Notional) (inst : Instrument) :
    Touches t (t.onFill id side px qty fee inst) id := by
  have hcount : Touches t ((t.bump.addFees id fee).countFill id qty) id := by
    apply ((Touches.refl t id).bump.addFees fee).setPos <;> rfl
  apply Touches.valueAgain
  generalize (if side = Side.buy then qty else -qty) = f
  split
  · exact hcount.addToPosition f px inst
  · exact hcount.takeFromPosition f px inst

theorem correctFill_touches (t : PositionTracker) (id : Fin kMaxInstruments) (side : Side)
    (estPx px : Price) (qty : Qty) (fee : Notional) (inst : Instrument) :
    Touches t (t.correctFill id side estPx px qty fee inst) id :=
  ((Touches.refl t id).bump.addRealized _).addFees fee

theorem onFunding_touches (t : PositionTracker) (id : Fin kMaxInstruments) (amount : Notional) :
    Touches t (t.onFunding id amount) id :=
  ((Touches.refl t id).bump.addRealized amount).addFunding amount

theorem set_touches (t : PositionTracker) (id : Fin kMaxInstruments) (qty : Qty) (avgPx : Price)
    (inst : Instrument) : Touches t (t.set id qty avgPx inst) id := by
  apply Touches.setExposure
  apply Touches.setUnrealized
  apply (Touches.refl t id).bump.setPos <;> rfl

theorem reset_touches (t : PositionTracker) (id : Fin kMaxInstruments) :
    Touches t (t.reset id) id := by
  -- What the last write clears is zero already.
  apply Touches.setPos
  · apply Touches.setExposure
    apply Touches.setUnrealized
    apply Touches.addFunding
    apply Touches.addFees
    apply Touches.addRealized
    exact (Touches.refl t id).bump
  · simp [setExposure, moveExposure, setUnrealized, addFunding, addFees, addRealized, setPos, bump]
  · simp [setExposure, moveExposure, setUnrealized, setPos]
  · simp [setExposure, moveExposure, setUnrealized, addFunding, addFees, addRealized, setPos, bump]

/-! ## Plans and rates -/

/-- What no conversion writes, `reconvert` keeps. -/
theorem reconvert_proj {β : Type} (g : PositionTracker → β) {c : Fin kMaxCurrencies}
    (h : ∀ t f, g (t.convertAgain c f) = g t) (t : PositionTracker) :
    g (t.reconvert c) = g t := by
  simp only [reconvert, foldl_cons, foldl_nil, h]

theorem Summed.reconvert {t : PositionTracker} (h : Summed t) (c : Fin kMaxCurrencies) :
    Summed (t.reconvert c) := by
  have hplain := reconvert_proj (c := c) (fun t => t.plain) (fun _ _ => rfl) t
  have hvalue := reconvert_proj (c := c) (fun t => t.value) (fun _ _ => rfl) t
  have hnative := reconvert_proj (c := c) (fun t => t.native_) (fun _ _ => rfl) t
  have hfund := reconvert_proj (c := c) (fun t => t.fund) (fun _ _ => rfl) t
  have hccy := reconvert_proj (c := c) (fun t => t.ccy) (fun _ _ => rfl) t
  have hcount := reconvert_proj (c := c) (fun t => t.ccyCount) (fun _ _ => rfl) t
  have hconverting := reconvert_proj (c := c) (fun t => t.converting) (fun _ _ => rfl) t
  constructor
  · rw [hplain, hvalue]
    exact h.plain
  · rw [hfund]
    exact h.funding
  · rw [hnative, hconverting, hccy, hvalue]
    exact h.native
  · rw [hconverting, hfund, hccy]
    exact h.nativeFunding
  · rw [hcount]
    exact h.count_le
  · rw [hconverting, hccy, hcount]
    exact h.ccy_lt

theorem totalsByCurrency_get (t : PositionTracker) (c : Fin kMaxCurrencies) (f : TotalsField) :
    (t.totalsByCurrency c).get f =
      (t.native_ c).get f + ∑ i, if t.ccy i = c then t.value f i else 0 := by
  have hput : ∀ (s : Totals) i, (t.addPosition s i).get f = s.get f + t.value f i := by
    intro s i
    cases f <;> rfl
  have hfold := Foundation.foldl_bucket t.ccy t.addPosition (fun s => s.get f) (t.value f) hput
    (List.finRange kMaxInstruments) t.native_ c
  rw [Fin.sum_univ_def]
  exact hfold

theorem fundingByCurrency_apply (t : PositionTracker) (c : Fin kMaxCurrencies) :
    t.fundingByCurrency c =
      t.fund.native c + ∑ i, if t.ccy i = c then t.fund.per i else 0 := by
  have hfold := Foundation.foldl_bucket t.ccy (fun s i => s + t.fund.per i) (fun s => s)
    t.fund.per (fun _ _ => rfl) (List.finRange kMaxInstruments) t.fund.native c
  rw [Fin.sum_univ_def]
  exact hfold

theorem convert_unknown (n : Notional) : convert n {} = 0 := by
  simp [convert]

/-- A plan takes everything booked so far into its currencies. -/
theorem setAccounting_exact {t : PositionTracker} (h : Summed t) (plan : FxPlan) :
    Exact (t.setAccounting plan) := by
  have hzero : ∀ c f, ((t.withPlan plan).native_ c).get f = 0 := fun _ f => get_default f
  have hconv : ∀ c f, ((t.withPlan plan).conv c).get f = 0 := fun _ f => get_default f
  have htotal : ∀ f, (t.withPlan plan).convTotal.get f =
      ∑ c, ((t.withPlan plan).conv c).get f := by
    intro f
    simp [withPlan]
  unfold setAccounting
  dsimp only
  cases hc : (t.withPlan plan).converting with
  | false =>
    have hoff : ¬ (t.withPlan plan).converting = true := by simp [hc]
    rw [if_neg (by decide)]
    refine ⟨⟨h.plain, h.funding, ?_, fun hon => absurd hon hoff, plan.count_le,
      fun hon => absurd hon hoff⟩, ?_, htotal⟩
    · intro f c
      rw [if_neg hoff, hzero]
    · intro c f
      rw [hzero, convert_zero, hconv]
  | true =>
    have hcount : 1 < plan.count := by
      exact of_decide_eq_true hc
    have hvalue : (t.withPlan plan).intoCurrencies.value = (t.withPlan plan).value := rfl
    have hccy : (t.withPlan plan).intoCurrencies.ccy = (t.withPlan plan).ccy := rfl
    rw [if_pos rfl]
    constructor
    · apply Summed.reconvert
      refine ⟨h.plain, h.funding, ?_, ?_, plan.count_le, ?_⟩
      · intro f c
        have hon : (t.withPlan plan).intoCurrencies.converting = true := hc
        have hnative : (t.withPlan plan).intoCurrencies.native_ =
            (t.withPlan plan).totalsByCurrency := by
          simp only [intoCurrencies]
        rw [hnative, totalsByCurrency_get, hzero, zero_add, if_pos hon, hvalue, hccy]
      · intro _ c
        have hnative : (t.withPlan plan).intoCurrencies.fund.native =
            (t.withPlan plan).fundingByCurrency := by
          simp only [intoCurrencies]
        have hfund : (t.withPlan plan).fund.native c = 0 := rfl
        have hper : (t.withPlan plan).intoCurrencies.fund.per = (t.withPlan plan).fund.per := rfl
        rw [hnative, fundingByCurrency_apply, hfund, zero_add, hper, hccy]
      · intro _ i
        have hlt := plan.ccy_lt hcount i
        rw [hccy]
        exact hlt
    · -- Only the reporting currency has a rate yet.
      apply reconvert_convExact
      · intro d hd f
        have hrate : (t.withPlan plan).intoCurrencies.rate_ = noRates := rfl
        have hd' : d.val ≠ 0 := fun hval => hd (Fin.ext hval)
        rw [hrate, noRates_of_ne hd', convert_unknown]
        exact hconv d f
      · exact htotal

theorem setRate_exact {t : PositionTracker} (h : Exact t) (c : Nat) (r : FxRate) :
    Exact (t.setRate c r) := by
  unfold setRate
  split
  case isFalse => exact h
  case isTrue hc =>
    constructor
    · apply Summed.reconvert
      exact ⟨h.summed.plain, h.summed.funding, h.summed.native, h.summed.nativeFunding,
        h.summed.count_le, h.summed.ccy_lt⟩
    apply reconvert_convExact
    · intro d hd f
      dsimp only
      rw [update_of_ne hd]
      exact h.conv.conv d f
    · exact h.conv.total

/-! ## Whole runs -/

theorem Touches.exact {t t' : PositionTracker} {id : Fin kMaxInstruments}
    (h : Touches t t' id) (ht : Exact t) : Exact t' := by
  obtain ⟨d, e, h⟩ := h
  exact ⟨h.summed ht.summed, h.conv ht.conv⟩

theorem exact_init : Exact {} := by
  refine ⟨⟨?_, ?_, ?_, ?_, Nat.zero_le _, ?_⟩, ?_, ?_⟩
  · intro f
    cases f <;> simp [plain, value, absRaw]
  · simp
  · intro f c
    simp [converting]
  · intro h
    simp [converting] at h
  · intro h
    simp [converting] at h
  · intro c f
    simp [convert_zero]
  · intro f
    simp

/-- A call touches one instrument, or sets the plan or a rate. -/
theorem step_touches (t : PositionTracker) (op : Op) : (∃ id, Touches t (t.step op) id) ∨
    (∃ plan, op = .setAccounting plan) ∨ ∃ c r, op = .setRate c r := by
  cases op with
  | onFill id side px qty fee inst => exact .inl ⟨id, onFill_touches t id side px qty fee inst⟩
  | correctFill id side estPx px qty fee inst =>
    exact .inl ⟨id, correctFill_touches t id side estPx px qty fee inst⟩
  | onFunding id amount => exact .inl ⟨id, onFunding_touches t id amount⟩
  | mark id mid inst => exact .inl ⟨id, (Touches.refl t id).mark mid inst⟩
  | set id qty avgPx inst => exact .inl ⟨id, set_touches t id qty avgPx inst⟩
  | reset id => exact .inl ⟨id, reset_touches t id⟩
  | setAccounting plan => exact .inr (.inl ⟨plan, rfl⟩)
  | setRate c r => exact .inr (.inr ⟨c, r, rfl⟩)

theorem step_exact {t : PositionTracker} (h : Exact t) (op : Op) : Exact (t.step op) := by
  obtain ⟨id, ht⟩ | ⟨plan, rfl⟩ | ⟨c, r, rfl⟩ := step_touches t op
  · exact ht.exact h
  · exact setAccounting_exact h.summed plan
  · exact setRate_exact h c r

theorem run_exact (ops : List Op) : Exact (run ops) := by
  have hall : ∀ t, Exact t → Exact (ops.foldl step t) := by
    induction ops with
    | nil => exact fun t h => h
    | cons op ops ih => exact fun t h => ih _ (step_exact h op)
  exact hall {} exact_init

/-! ## What the tracker reports -/

/-- Whether a rate of currency `c` was set since the plan was. -/
def rateSet (c : Nat) (ops : List Op) : Bool :=
  ops.foldl (fun known op => match op with
    | .setAccounting _ => false
    | .setRate c' _ => known || c' == c
    | _ => known) false

/-- A total over the plan's currencies is one over all of them: the others hold
nothing. -/
theorem Exact.convTotal_eq {t : PositionTracker} (h : Exact t) (hc : t.converting = true)
    (f : TotalsField) : t.convTotal.get f =
      ∑ c ∈ Finset.range t.ccyCount, convert ((t.native c).get f) (t.rate c) := by
  have hall : t.convTotal.get f =
      ∑ c ∈ Finset.range kMaxCurrencies, convert ((t.native c).get f) (t.rate c) := by
    rw [h.conv.total, ← Fin.sum_univ_eq_sum_range
      (fun c => convert ((t.native c).get f) (t.rate c))]
    refine Finset.sum_congr rfl ?_
    intro c _
    rw [h.conv.conv, native, rate, dif_pos c.isLt, dif_pos c.isLt]
  rw [hall]
  symm
  apply Finset.sum_subset
  · intro c hcount
    rw [Finset.mem_range] at hcount ⊢
    exact Nat.lt_of_lt_of_le hcount h.summed.count_le
  intro c hmax hcount
  rw [Finset.mem_range] at hmax hcount
  have hzero : (t.native c).get f = 0 := by
    rw [native, dif_pos hmax, h.summed.native, if_pos hc]
    apply Finset.sum_eq_zero
    intro i _
    have hlt := h.summed.ccy_lt hc i
    rw [if_neg]
    intro heq
    rw [heq] at hlt
    exact hcount hlt
  rw [hzero, convert_zero]

theorem totalFunding_eq {t : PositionTracker} (hc : t.converting = true) : t.totalFunding =
    ∑ c ∈ Finset.range t.ccyCount, convert (t.nativeFunding c) (t.rate c) := by
  unfold totalFunding
  rw [if_pos hc]
  induction t.ccyCount with
  | zero => rfl
  | succ n ih =>
    rw [range_succ, foldl_append, ih, Finset.sum_range_succ]
    rfl

theorem Touches.rate {t t' : PositionTracker} {id : Fin kMaxInstruments}
    (h : Touches t t' id) (c : Nat) : t'.rate c = t.rate c := by
  obtain ⟨d, e, h⟩ := h
  unfold PositionTracker.rate
  rw [h.rate]

theorem setAccounting_rate (t : PositionTracker) (plan : FxPlan) {c : Nat} (hc : c ≠ 0) :
    (t.setAccounting plan).rate c = {} := by
  have hrate : (t.setAccounting plan).rate_ = (t.withPlan plan).rate_ := by
    unfold setAccounting
    dsimp only
    split
    · rw [reconvert_proj (c := 0) (fun t => t.rate_) (fun _ _ => rfl)]
      simp only [intoCurrencies]
    · rfl
  unfold rate
  rw [hrate]
  split
  case isFalse => rfl
  case isTrue hlt => exact noRates_of_ne hc

theorem setRate_rate (t : PositionTracker) (r : FxRate) {c d : Nat} (hcd : d ≠ c) :
    (t.setRate d r).rate c = t.rate c := by
  unfold setRate
  split
  case isFalse => rfl
  case isTrue hd =>
    unfold rate
    rw [reconvert_proj (c := ⟨d, hd.2⟩) (fun t => t.rate_) (fun _ _ => rfl)]
    split
    case isFalse => rfl
    case isTrue hlt =>
      apply update_of_ne
      intro h
      exact hcd (congrArg Fin.val h).symm

/-- A rate that was not set since the plan is unknown. -/
theorem rate_of_not_rateSet {c : Nat} (hc : c ≠ 0) (ops : List Op)
    (h : rateSet c ops = false) : (run ops).rate c = {} := by
  -- Along the run: while the flag is down the rate is unknown.
  have hall : ∀ (t : PositionTracker) (known : Bool), (known = false → t.rate c = {}) →
      ops.foldl (fun known op => match op with
        | .setAccounting _ => false
        | .setRate c' _ => known || c' == c
        | _ => known) known = false → (ops.foldl step t).rate c = {} := by
    clear h
    induction ops with
    | nil => exact fun t known ht hk => ht hk
    | cons op ops ih =>
      intro t known ht hk
      rw [foldl_cons] at hk ⊢
      apply ih _ _ _ hk
      intro hflag
      split at hflag
      · exact setAccounting_rate t _ hc
      · rw [Bool.or_eq_false_iff, beq_eq_false_iff_ne] at hflag
        exact (setRate_rate t _ hflag.2).trans (ht hflag.1)
      · rename_i hplan hrate
        obtain ⟨id, htouch⟩ | ⟨plan, rfl⟩ | ⟨d, r, rfl⟩ := step_touches t op
        · exact (htouch.rate c).trans (ht hflag)
        · exact absurd rfl (hplan plan)
        · exact absurd rfl (hrate d r)
  apply hall {} false _ h
  intro _
  unfold rate
  split
  case isFalse => rfl
  case isTrue hlt => exact noRates_of_ne hc

/-- After any sequence of calls every cached total is the sum it stands for: the
plain ones over the instruments, those of a currency over its instruments, and the
converted ones over the currencies at their rates, where a rate that was not set
since the plan counts as zero. -/
theorem totals_eq_sums (ops : List Op) :
    let t := run ops
    (t.realizedTotal = ∑ i, (t.pos i).realized ∧ t.unrealizedTotal = ∑ i, (t.pos i).unrealized ∧
      t.feesTotal = ∑ i, (t.pos i).fees ∧ t.fund.total = ∑ i, t.fund.per i ∧
      t.grossExposure_ = ∑ i, absRaw (t.exposure i) ∧ t.netExposure_ = ∑ i, t.exposure i) ∧
    (t.converting = false →
      t.totalRealized = ∑ i, (t.pos i).realized ∧
      t.totalUnrealized = ∑ i, (t.pos i).unrealized ∧
      t.totalFees = ∑ i, (t.pos i).fees ∧ t.totalFunding = ∑ i, t.fund.per i ∧
      t.grossExposure = ∑ i, absRaw (t.exposure i) ∧ t.netExposure = ∑ i, t.exposure i) ∧
    (t.converting = true →
      (∀ c < kMaxCurrencies,
        (t.native c).realized = (∑ i, if (t.ccy i).val = c then (t.pos i).realized else 0) ∧
        (t.native c).unrealized = (∑ i, if (t.ccy i).val = c then (t.pos i).unrealized else 0) ∧
        (t.native c).fees = (∑ i, if (t.ccy i).val = c then (t.pos i).fees else 0) ∧
        t.nativeFunding c = (∑ i, if (t.ccy i).val = c then t.fund.per i else 0) ∧
        (t.native c).gross = (∑ i, if (t.ccy i).val = c then absRaw (t.exposure i) else 0) ∧
        (t.native c).net = (∑ i, if (t.ccy i).val = c then t.exposure i else 0)) ∧
      t.totalRealized =
        ∑ c ∈ Finset.range t.ccyCount, convert (t.native c).realized (t.rate c) ∧
      t.totalUnrealized =
        ∑ c ∈ Finset.range t.ccyCount, convert (t.native c).unrealized (t.rate c) ∧
      t.totalFees = ∑ c ∈ Finset.range t.ccyCount, convert (t.native c).fees (t.rate c) ∧
      t.totalFunding =
        ∑ c ∈ Finset.range t.ccyCount, convert (t.nativeFunding c) (t.rate c) ∧
      t.grossExposure =
        ∑ c ∈ Finset.range t.ccyCount, convert (t.native c).gross (t.rate c) ∧
      t.netExposure = ∑ c ∈ Finset.range t.ccyCount, convert (t.native c).net (t.rate c)) ∧
    (∀ c ≠ 0, rateSet c ops = false → ∀ n, convert n (t.rate c) = 0) := by
  intro t
  have h : Exact t := run_exact ops
  have hplain := h.summed.plain
  refine ⟨⟨hplain .realized, hplain .unrealized, hplain .fees, h.summed.funding, hplain .gross,
    hplain .net⟩, ?_, ?_, ?_⟩
  · intro hc
    simp only [totalRealized, totalUnrealized, totalFees, totalFunding, grossExposure, netExposure,
      hc, Bool.false_eq_true, if_false]
    exact ⟨hplain .realized, hplain .unrealized, hplain .fees, h.summed.funding, hplain .gross,
      hplain .net⟩
  · intro hc
    have htotal := h.convTotal_eq hc
    refine ⟨?_, ?_⟩
    · intro c hlt
      have hnative : ∀ f, (t.native c).get f =
          ∑ i, if (t.ccy i).val = c then t.value f i else 0 := by
        intro f
        rw [native, dif_pos hlt, h.summed.native, if_pos hc]
        simp only [Fin.ext_iff]
      refine ⟨hnative .realized, hnative .unrealized, hnative .fees, ?_, hnative .gross,
        hnative .net⟩
      rw [nativeFunding, dif_pos hlt, h.summed.nativeFunding hc]
      simp only [Fin.ext_iff]
    · refine ⟨?_, ?_, ?_, totalFunding_eq hc, ?_, ?_⟩
      · rw [totalRealized, if_pos hc]
        exact htotal .realized
      · rw [totalUnrealized, if_pos hc]
        exact htotal .unrealized
      · rw [totalFees, if_pos hc]
        exact htotal .fees
      · rw [grossExposure, if_pos hc]
        exact htotal .gross
      · rw [netExposure, if_pos hc]
        exact htotal .net
  · intro c hc hset n
    have hrate : t.rate c = {} := rate_of_not_rateSet hc ops hset
    rw [hrate, convert_unknown]

end PositionTracker

end FastMM
