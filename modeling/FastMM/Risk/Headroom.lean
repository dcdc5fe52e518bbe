/-
  Risk/Headroom.lean --- what each limit still admits.

  Source: `RiskEngine::headroom` of `include/fastmm/core/risk.hpp` and `RiskHeadroom` of
  `risk_limits.hpp`; the engine adds the balances' rooms itself.

  Headroom and check read the same inputs and compute apart.  A cap on `|position|` admits, in the
  direction of an order, what stays within the cap or within the position there is; that is one
  bound on the order, whichever sign the position has.
-/
import FastMM.Risk.TokenBucket
set_option autoImplicit false

namespace FastMM

open List

/-- `RiskHeadroom::kUnlimited`, the `max()` of every fixed-point type. -/
def kUnlimited : Int := 9223372036854775807

/-- `RiskHeadroom`, as `RiskEngine::headroom` fills it. -/
structure RiskHeadroom where
  orderTokens : Int := kUnlimited
  openOrders : Int := kUnlimited
  maxOrderQty : Qty := kUnlimited
  maxOrderNotional : Notional := kUnlimited
  buyQty : Qty := kUnlimited
  sellQty : Qty := kUnlimited
  underlyingBuyQty : Qty := kUnlimited
  underlyingSellQty : Qty := kUnlimited
  grossNotional : Notional := kUnlimited
  netBuyNotional : Notional := kUnlimited
  netSellNotional : Notional := kUnlimited
  exposureBuyNotional : Notional := kUnlimited
  exposureSellNotional : Notional := kUnlimited
  lossBudget : Notional := kUnlimited
  deriving DecidableEq, Repr

namespace RiskEngine

variable (r : RiskEngine)

def lotFloor (inst : Instrument) (raw : Int) : Qty :=
  if raw ≤ 0 then 0 else if ¬ 0 < inst.lot then raw else raw - raw.tmod inst.lot

def toOwn (r : Notional) (rate : FxRate) : Notional :=
  if r = kUnlimited ∨ rate.num = rate.den then r
  else
    let n := (r * rate.den).tdiv rate.num
    if kUnlimited ≤ n then kUnlimited else n

/-- The room up to a cap `m` of a position `q` in the direction of the order, behind what is open
there: `q + opened + x` passes while it is at most `m`, or while it is no further from zero than
`q`. -/
def roomTo (m q opened : Int) : Int :=
  let b := m - q - opened
  if q < 0 then max b (-2 * q - opened) else b

/-- A position as an order of a side sees it: a sell mirrors it. -/
def facing (side : Side) (q : Int) : Int :=
  match side with
  | .buy => q
  | .sell => -q

/-- The exposure room of a side, of `headroom`: the part that closes the position passes whatever
the caps, and past it the gross room bounds that part and the net room the whole order. -/
def exposureRoom (id : InstrumentId) (inst : Instrument) (i : RiskInputs)
    (now : Timestamp) (q : Qty) (side : Side) (gross net : Notional) : Notional :=
  let c := r.fxCcy id.value
  let mid := (r.md id.value).mid
  let left :=
    if q ≠ 0 ∧ decide (0 < q) ≠ decide (side = .buy) then absRaw q - i.openSameSide else 0
  let closes := if 0 < left ∧ 0 < mid then inst.notional mid left else 0
  let rate := r.fxRate c now
  if r.fxGate = true ∧ c ≠ 0 ∧ rate.known = false then closes
  else
    let converts := r.fxGate = true ∧ c ≠ 0
    let g := if converts then toOwn gross rate else gross
    let n := if converts then toOwn net rate else net
    let opened := if g = kUnlimited ∨ kUnlimited - g < closes then kUnlimited else closes + g
    max closes (min opened n)

/-- The room of an underlying's cap, in contracts. -/
def underlyingRoom (id : InstrumentId) (inst : Instrument) (now : Timestamp)
    (u : UnderlyingInputs) (side : Side) : Qty :=
  let mark := r.underlyingMark id now
  if u.known = false ∨ (inst.inverse = true ∧ ¬ 0 < mark) then 0
  else
    let room := roomTo (r.undMax (r.undOf id.value - 1)) (facing side u.net) u.opened
    if room ≤ 0 then 0
    else
      let c :=
        if inst.inverse then (room * mark).tdiv inst.contractMultiplier
        else (room * kFixedScale).tdiv inst.contractMultiplier
      lotFloor inst (castInt64 c)

def headroom (id : InstrumentId) (inst : Instrument) (buy sell : RiskInputs)
    (netPnl : Notional) : RiskHeadroom :=
  let lim := r.limits
  let gross :=
    if 0 < lim.maxGrossNotional then max (lim.maxGrossNotional - buy.grossExposure) 0
    else kUnlimited
  let netRoom (side : Side) :=
    if 0 < lim.maxNetNotional then
      max (roomTo lim.maxNetNotional (facing side buy.netExposure) 0) 0
    else kUnlimited
  let positionRoom (side : Side) :=
    match buy.position with
    | some q =>
      if 0 < lim.maxPosition then
        lotFloor inst (roomTo lim.maxPosition (facing side q)
          (match side with | .buy => buy.openSameSide | .sell => sell.openSameSide))
      else kUnlimited
    | none => kUnlimited
  let exposure (side : Side) :=
    match buy.position with
    | some q =>
      if r.portfolio = true ∧ id.value < kMaxInstruments then
        exposureRoom r id inst (match side with | .buy => buy | .sell => sell) buy.now q side
          gross (netRoom side)
      else kUnlimited
    | none => kUnlimited
  let underlying (u : UnderlyingInputs) (side : Side) :=
    if buy.underlying.limited = true ∧ id.value < kMaxInstruments then
      underlyingRoom r id inst buy.now u side
    else kUnlimited
  { orderTokens := r.bucket.available buy.now
    openOrders :=
      if 0 < lim.maxOpenOrders then max ((lim.maxOpenOrders : Int) - buy.openOrders) 0
      else kUnlimited
    maxOrderQty := if 0 < lim.maxOrderQty then lim.maxOrderQty else kUnlimited
    maxOrderNotional := if 0 < lim.maxOrderNotional then lim.maxOrderNotional else kUnlimited
    buyQty := positionRoom .buy
    sellQty := positionRoom .sell
    underlyingBuyQty := underlying buy.underlying .buy
    underlyingSellQty := underlying sell.underlying .sell
    grossNotional := gross
    netBuyNotional := netRoom .buy
    netSellNotional := netRoom .sell
    exposureBuyNotional := exposure .buy
    exposureSellNotional := exposure .sell
    lossBudget := if 0 < lim.maxLoss then lim.maxLoss + netPnl else kUnlimited }

/-- The inputs of a side. -/
def inputsOf (buy sell : RiskInputs) : Side → RiskInputs
  | .buy => buy
  | .sell => sell

/-! ## Rooms -/

section Rooms

variable {inst : Instrument} {m q opened x : Int}

/-- A multiple of the lot is within a room exactly when it is within its whole lots. -/
theorem le_lotFloor_iff (hx : 0 < x) (hlot : inst.lot ∣ x) (raw : Int) :
    x ≤ lotFloor inst raw ↔ x ≤ raw := by
  unfold lotFloor
  by_cases hraw : raw ≤ 0
  · rw [if_pos hraw]
    constructor <;> intro h <;> linarith
  rw [if_neg hraw]
  by_cases hpos : 0 < inst.lot
  · rw [if_neg (not_not.mpr hpos), Int.tmod_eq_emod_of_nonneg (by linarith)]
    obtain ⟨k, rfl⟩ := hlot
    have hwhole : raw - raw % inst.lot = inst.lot * (raw / inst.lot) :=
      sub_eq_of_eq_add (Int.mul_ediv_add_emod raw inst.lot).symm
    rw [hwhole, Int.mul_le_mul_left hpos, Int.le_ediv_iff_mul_le hpos, mul_comm]
  · rw [if_pos hpos]

theorem lotFloor_le {raw : Int} (h : 0 ≤ raw) : lotFloor inst raw ≤ raw := by
  unfold lotFloor
  split
  · exact h
  · split
    · exact le_rfl
    · exact sub_le_self _ (Int.tmod_nonneg _ h)

/-- Within the room of a cap an order stays within the cap, or no further from zero than the
position is. -/
theorem within_of_le_roomTo (hopened : 0 ≤ opened) (hx : 0 ≤ x) (h : x ≤ roomTo m q opened) :
    ¬ (m < absRaw (q + (opened + x)) ∧ absRaw q < absRaw (q + (opened + x))) := by
  unfold roomTo at h
  unfold absRaw
  simp only at h
  by_cases hq : q < 0
  · rw [if_pos hq] at h ⊢
    split <;> omega
  · rw [if_neg hq] at h ⊢
    split <;> omega

/-- The room of a cap is all that the check admits. -/
theorem le_roomTo_iff (hm : 0 < m) (hopened : 0 ≤ opened) (hx : 0 < x) : x ≤ roomTo m q opened ↔
      ¬ (m < absRaw (q + (opened + x)) ∧ absRaw q < absRaw (q + (opened + x))) := by
  refine ⟨within_of_le_roomTo hopened hx.le, fun h => ?_⟩
  unfold roomTo
  unfold absRaw at h
  by_cases hq : q < 0
  · rw [if_pos hq] at h ⊢
    split at h <;> omega
  · rw [if_neg hq] at h ⊢
    split at h <;> omega

theorem absRaw_neg (x : Int) : absRaw (-x) = absRaw x := by
  unfold absRaw
  split <;> split <;> omega

/-- A worst case as the side sees it. -/
theorem absRaw_facing (side : Side) (q y : Int) :
    absRaw (q + side.sign * y) = absRaw (facing side q + y) ∧
      absRaw q = absRaw (facing side q) := by
  cases side with
  | buy =>
    have hsum : q + Side.sign .buy * y = q + y := by
      show q + 1 * y = q + y
      rw [one_mul]
    exact ⟨congrArg absRaw hsum, rfl⟩
  | sell =>
    have hsum : q + Side.sign .sell * y = -(-q + y) := by
      show q + -1 * y = -(-q + y)
      ring
    exact ⟨(congrArg absRaw hsum).trans (absRaw_neg _), (absRaw_neg q).symm⟩

/-- Contracts within `c * d / e` are worth at most `c`, at `e / d` a contract: rounding down there
and back loses both times. -/
theorem worth_le {c d e x : Int} (hd : 0 < d) (he : 0 < e) (hc : 0 ≤ c) (hx0 : 0 ≤ x)
    (hx : x ≤ castInt64 ((c * d).tdiv e)) : (x * e).tdiv d ≤ c := by
  have hprod : 0 ≤ c * d := mul_nonneg hc hd.le
  have hquot : 0 ≤ (c * d).tdiv e := Int.tdiv_nonneg hprod he.le
  have hle : x ≤ c * d / e := by
    rw [← Int.tdiv_eq_ediv_of_nonneg hprod]
    exact hx.trans (castInt64_le ((by decide : (-2 ^ 63 : Int) ≤ 0).trans hquot))
  rw [Int.tdiv_eq_ediv_of_nonneg (mul_nonneg hx0 he.le)]
  have hmul : x * e ≤ c * d := (Int.le_ediv_iff_mul_le he).mp hle
  exact Int.ediv_le_of_le_mul hd hmul

end Rooms

/-! ## The check beside the room -/

/-- The first refusal is the reason of one check among others that do not give it, exactly when
none before it refuses. -/
theorem first_refusal {A B : List Check} {c : Check} {reason : RejectReason}
    (hA : ∀ a ∈ A, a ≠ some reason) (hB : ∀ b ∈ B, b ≠ some reason) :
    (A ++ c :: B).findSome? id = some reason ↔ (∀ a ∈ A, a = none) ∧ c = some reason := by
  constructor
  · intro h
    rw [findSome?_append] at h
    cases hfind : A.findSome? id with
    | some found =>
      obtain ⟨a, ha, hid⟩ := exists_of_findSome?_eq_some hfind
      rw [hfind] at h
      have hsame : found = reason := Option.some.inj h
      exact absurd (hid.trans (congrArg some hsame)) (hA a ha)
    | none =>
      rw [hfind] at h
      refine ⟨List.findSome?_eq_none_iff.mp hfind, ?_⟩
      cases hc : c with
      | some found =>
        rw [hc] at h
        exact h
      | none =>
        rw [hc] at h
        obtain ⟨b, hb, hid⟩ := exists_of_findSome?_eq_some h
        rcases mem_cons.mp hb with rfl | hb
        · nomatch hid
        · exact absurd hid (hB b hb)
  · rintro ⟨hnone, rfl⟩
    have hfirst : A.findSome? id = none := List.findSome?_eq_none_iff.mpr hnone
    rw [findSome?_append, hfirst]
    rfl

section Beside

variable {r : RiskEngine} {id : InstrumentId} {inst : Instrument} {o : OrderIntent}

/-- Contracts within the room of an underlying are worth at most the room of its cap. -/
theorem underlyingRoom_spec (hmult : 0 < inst.contractMultiplier) {now : Timestamp}
    {u : UnderlyingInputs} {side : Side} {x : Qty} (hx : 0 < x)
    (hroom : x ≤ underlyingRoom r id inst now u side) :
    ∃ add, toBaseUnits inst x (r.underlyingMark id now) = some add ∧ 0 ≤ add ∧
      add ≤ roomTo (r.undMax (r.undOf id.value - 1)) (facing side u.net) u.opened := by
  unfold underlyingRoom at hroom
  simp only at hroom
  split at hroom
  · exact absurd hroom (not_le.mpr hx)
  rename_i hmark
  split at hroom
  · exact absurd hroom (not_le.mpr hx)
  rename_i hpos
  generalize roomTo (r.undMax (r.undOf id.value - 1)) (facing side u.net) u.opened = room at *
  have hroom0 : 0 ≤ room := (not_le.mp hpos).le
  have hcast : ∀ {d : Int}, 0 ≤ d →
      x ≤ lotFloor inst (castInt64 ((room * d).tdiv inst.contractMultiplier)) →
        x ≤ castInt64 ((room * d).tdiv inst.contractMultiplier) := by
    intro d _ hle
    by_cases hneg : castInt64 ((room * d).tdiv inst.contractMultiplier) ≤ 0
    · unfold lotFloor at hle
      rw [if_pos hneg] at hle
      exact absurd hle (not_le.mpr hx)
    · exact hle.trans (lotFloor_le (not_le.mp hneg).le)
  have hxne : ¬ x = 0 := hx.ne'
  unfold toBaseUnits
  rw [if_neg hxne]
  by_cases hinv : inst.inverse = true
  · have hmark0 : 0 < r.underlyingMark id now := by
      by_contra hno
      exact hmark (Or.inr ⟨hinv, hno⟩)
    rw [if_pos hinv] at hroom ⊢
    rw [if_pos hmark0]
    exact ⟨_, rfl, Int.tdiv_nonneg (mul_nonneg hx.le hmult.le) hmark0.le,
      worth_le hmark0 hmult hroom0 hx.le (hcast hmark0.le hroom)⟩
  · rw [if_neg hinv] at hroom ⊢
    have hscale : 0 < kFixedScale := by decide
    have hworth : mulRaw x inst.contractMultiplier ≤ room :=
      worth_le hscale hmult hroom0 hx.le (hcast hscale.le hroom)
    have hnonneg : 0 ≤ mulRaw x inst.contractMultiplier :=
      Int.tdiv_nonneg (mul_nonneg hx.le hmult.le) hscale.le
    by_cases hone : inst.contractMultiplier = kFixedScale
    · have hsame : mulRaw x inst.contractMultiplier = x := by
        unfold mulRaw
        rw [hone, Int.mul_tdiv_cancel _ hscale.ne']
      rw [if_pos hone]
      rw [hsame] at hworth
      exact ⟨x, rfl, hx.le, hworth⟩
    · rw [if_neg hone]
      exact ⟨_, rfl, hnonneg, hworth⟩

end Beside

section Reasons

variable {r : RiskEngine} {o : OrderIntent} {inst : Instrument} {i : RiskInputs}
  {excludeOpen : Qty} {countOrder : Bool} {reason : RejectReason}

/-- The reason of a refusal other than the rate limit's is that of the first check that refuses. -/
theorem check_reason (hnone : reason ≠ .none) (hrate : reason ≠ .rateLimit) :
    (check r o inst i excludeOpen countOrder).2 = reason ↔
      (checks r o inst i excludeOpen countOrder).findSome? id = some reason := by
  unfold check evaluate
  cases hfind : (checks r o inst i excludeOpen countOrder).findSome? id with
  | some found =>
    exact ⟨congrArg some, Option.some.inj⟩
  | none =>
    constructor
    · intro h
      simp only at h
      split at h
      · exact absurd h.symm hnone
      · exact absurd h.symm hrate
    · nofun

/-- A reason that one check alone gives is that of the refusal exactly when the checks before it
pass and it refuses. -/
theorem check_iff (n : Nat) {c : Check} (hnone : reason ≠ .none) (hrate : reason ≠ .rateLimit)
    (hat : checks r o inst i excludeOpen countOrder =
      (checks r o inst i excludeOpen countOrder).take n ++
        c :: (checks r o inst i excludeOpen countOrder).drop (n + 1))
    (hbefore : reason ∉ (checkReasons.take n).flatten)
    (hbehind : reason ∉ (checkReasons.drop (n + 1)).flatten) :
    (check r o inst i excludeOpen countOrder).2 = reason ↔
      (∀ a ∈ (checks r o inst i excludeOpen countOrder).take n, a = none) ∧ c = some reason := by
  refine (check_reason hnone hrate).trans ((iff_of_eq (congrArg (findSome? id · = _) hat)).trans ?_)
  exact first_refusal (fun _ => not_given (forall₂_take n checks_give) hbefore)
    (fun _ => not_given (forall₂_drop (n + 1) checks_give) hbehind)

theorem maxPosition_iff : (check r o inst i excludeOpen countOrder).2 = .maxPosition ↔
      (∀ c ∈ (checks r o inst i excludeOpen countOrder).take 13, c = none) ∧
        positionCheck r o i excludeOpen = some .maxPosition :=
  check_iff 13 (by decide) (by decide) rfl (by decide) (by decide)

theorem maxUnderlyingNet_iff : (check r o inst i excludeOpen countOrder).2 = .maxUnderlyingNet ↔
      (∀ c ∈ (checks r o inst i excludeOpen countOrder).take 15, c = none) ∧
        underlyingCheck r o inst i excludeOpen = some .maxUnderlyingNet :=
  check_iff 15 (by decide) (by decide) rfl (by decide) (by decide)

end Reasons

end RiskEngine

/-- The quantity `max_position` leaves to a side. -/
def RiskHeadroom.positionQty (h : RiskHeadroom) : Side → Qty
  | .buy => h.buyQty
  | .sell => h.sellQty

/-- The quantity the underlying's cap leaves to a side. -/
def RiskHeadroom.underlyingQty (h : RiskHeadroom) : Side → Qty
  | .buy => h.underlyingBuyQty
  | .sell => h.underlyingSellQty

namespace RiskEngine

/-! ## Headroom and check -/

section Agree

variable {r : RiskEngine} {inst : Instrument} {o : OrderIntent} {buy sell : RiskInputs}

/-- The inputs of a buy and of a sell on one instrument at one time. -/
structure Paired (buy sell : RiskInputs) : Prop where
  now : sell.now = buy.now
  position : sell.position = buy.position
  limited : sell.underlying.limited = buy.underlying.limited

theorem Paired.inputs (h : Paired buy sell) (side : Side) :
    (inputsOf buy sell side).now = buy.now ∧ (inputsOf buy sell side).position = buy.position ∧
      (inputsOf buy sell side).underlying.limited = buy.underlying.limited := by
  cases side with
  | buy => exact ⟨rfl, rfl, rfl⟩
  | sell => exact ⟨h.now, h.position, h.limited⟩

/-- The position's room of a side is all that `max_position` admits there. -/
theorem le_positionQty_iff (hpair : Paired buy sell) (netPnl : Notional)
    (hopened : 0 ≤ (inputsOf buy sell o.side).openSameSide) (hlim : 0 < r.limits.maxPosition)
    {q : Qty} (hq : buy.position = some q) (hqty : 0 < o.qty) (hlot : inst.lot ∣ o.qty) :
    o.qty ≤ (headroom r o.instrument inst buy sell netPnl).positionQty o.side ↔
      positionCheck r o (inputsOf buy sell o.side) 0 = none := by
  have hroom : (headroom r o.instrument inst buy sell netPnl).positionQty o.side =
      lotFloor inst (roomTo r.limits.maxPosition (facing o.side q)
        (inputsOf buy sell o.side).openSameSide) := by
    unfold headroom
    simp only [hq, if_pos hlim]
    cases o.side <;> rfl
  obtain ⟨-, hposition, -⟩ := hpair.inputs o.side
  obtain ⟨hworst, hnow⟩ :=
    absRaw_facing o.side q ((inputsOf buy sell o.side).openSameSide + o.qty)
  rw [hroom, le_lotFloor_iff hqty hlot, le_roomTo_iff hlim hopened hqty, ← hworst, ← hnow]
  unfold positionCheck predicted
  rw [hposition, hq, sub_zero]
  constructor
  · intro hwithin
    exact if_neg fun hrefused => hwithin hrefused.2
  · exact fun hpass hbeyond => refuse_eq_none hpass ⟨hlim, hbeyond⟩

/-- Within the underlying's room of a side the underlying's cap does not refuse. -/
theorem underlyingCheck_of_le (hpair : Paired buy sell) (netPnl : Notional)
    (hmult : 0 < inst.contractMultiplier)
    (hopened : 0 ≤ (inputsOf buy sell o.side).underlying.opened) (hqty : 0 < o.qty)
    (hid : o.instrument.value < kMaxInstruments)
    (hle : o.qty ≤ (headroom r o.instrument inst buy sell netPnl).underlyingQty o.side) :
    underlyingCheck r o inst (inputsOf buy sell o.side) 0 ≠ some .maxUnderlyingNet := by
  obtain ⟨hnow, -, hlimited⟩ := hpair.inputs o.side
  unfold underlyingCheck
  by_cases hon : (inputsOf buy sell o.side).underlying.limited = true ∧
      (inputsOf buy sell o.side).position.isSome = true
  · have hroom : (headroom r o.instrument inst buy sell netPnl).underlyingQty o.side =
        underlyingRoom r o.instrument inst buy.now
          (inputsOf buy sell o.side).underlying o.side := by
      have hbuy : buy.underlying.limited = true ∧ o.instrument.value < kMaxInstruments :=
        ⟨hlimited ▸ hon.1, hid⟩
      unfold headroom
      simp only [if_pos hbuy]
      cases o.side <;> rfl
    rw [hroom] at hle
    obtain ⟨add, hadd, hnonneg, hcap⟩ := underlyingRoom_spec hmult hqty hle
    rw [if_pos hon]
    split
    · simp
    rw [sub_zero, hnow, hadd]
    have hwithin := within_of_le_roomTo hopened hnonneg hcap
    obtain ⟨hworst, hcur⟩ := absRaw_facing o.side (inputsOf buy sell o.side).underlying.net
      ((inputsOf buy sell o.side).underlying.opened + add)
    rw [← hworst, ← hcur] at hwithin
    have hpass : ¬ underlyingExceeds (r.undMax (r.undOf o.instrument.value - 1))
        (inputsOf buy sell o.side).underlying.net
        ((inputsOf buy sell o.side).underlying.net +
          o.side.sign * ((inputsOf buy sell o.side).underlying.opened + add)) = true :=
      fun hexceeds => hwithin (of_decide_eq_true hexceeds).2
    unfold refuse
    simp only [if_neg hpass]
    simp
  · rw [if_neg hon]
    simp

/-- Headroom agrees with the check.  A multiple of the lot passes `max_position` exactly when it is
within the position's room of its side, and is refused for it exactly when it is beyond and no check
before refuses; and within the underlying's room it is not refused for the underlying's cap. -/
theorem headroom_agrees (r : RiskEngine) (inst : Instrument) (o : OrderIntent)
    (buy sell : RiskInputs) (netPnl : Notional) (hpair : Paired buy sell) (hqty : 0 < o.qty) :
    (∀ q, buy.position = some q → 0 < r.limits.maxPosition →
        0 ≤ (inputsOf buy sell o.side).openSameSide → inst.lot ∣ o.qty →
      (positionCheck r o (inputsOf buy sell o.side) 0 ≠ some .maxPosition ↔
          o.qty ≤ (headroom r o.instrument inst buy sell netPnl).positionQty o.side) ∧
        ((checkNew r o inst (inputsOf buy sell o.side)).2 = .maxPosition ↔
          (∀ c ∈ (checks r o inst (inputsOf buy sell o.side) 0 true).take 13, c = none) ∧
            (headroom r o.instrument inst buy sell netPnl).positionQty o.side < o.qty)) ∧
      (0 < inst.contractMultiplier → 0 ≤ (inputsOf buy sell o.side).underlying.opened →
        o.qty ≤ (headroom r o.instrument inst buy sell netPnl).underlyingQty o.side →
        (checkNew r o inst (inputsOf buy sell o.side)).2 ≠ .maxUnderlyingNet) := by
  constructor
  · intro q hq hlim hopened hlot
    have hroom := le_positionQty_iff hpair netPnl hopened hlim hq hqty hlot
    have honly : positionCheck r o (inputsOf buy sell o.side) 0 = none ∨
        positionCheck r o (inputsOf buy sell o.side) 0 = some .maxPosition := by
      unfold positionCheck refuse
      split
      · exact Or.inl rfl
      · split
        · exact Or.inr rfl
        · exact Or.inl rfl
    have hpass : positionCheck r o (inputsOf buy sell o.side) 0 ≠ some .maxPosition ↔
        o.qty ≤ (headroom r o.instrument inst buy sell netPnl).positionQty o.side := by
      rw [hroom]
      rcases honly with hnone | hrefused
      · rw [hnone]
        simp
      · rw [hrefused]
        simp
    refine ⟨hpass, ?_⟩
    unfold checkNew
    rw [maxPosition_iff, ← not_le, ← hpass, not_not]
  · intro hmult hopened hle hrefused
    obtain ⟨hbefore, hcap⟩ := maxUnderlyingNet_iff.mp hrefused
    -- An instrument out of the table is refused before.
    have hknown : refuse .instrumentDisabled
        (inst.enabled = false ∨ kMaxInstruments ≤ o.instrument.value) = none :=
      hbefore _ (by simp [checks])
    have hid : o.instrument.value < kMaxInstruments := by
      by_contra hout
      exact refuse_eq_none hknown (Or.inr (not_lt.mp hout))
    exact underlyingCheck_of_le hpair netPnl hmult hopened hqty hid hle hcap

/-- A short position of four under a cap of ten, of an underlying capped as well, and a lot of
two. -/
theorem headroom_agrees_short :
    let r : RiskEngine :=
      { limits := { maxPosition := 10 }, undOf := fun _ => 1, undMax := fun _ => 10 }
    let o : OrderIntent := ⟨⟨0⟩, ⟨0⟩, .buy, .limit, 5, 12, .gtc⟩
    let buy : RiskInputs :=
      { position := some (-4), openSameSide := 1, underlying := ⟨-4, 1, true, true⟩ }
    positionCheck r o buy 0 ≠ some .maxPosition ∧
      (checkNew r o { enabled := true, tick := 1, lot := 2 } buy).2 ≠ .maxUnderlyingNet := by
  intro r o buy
  have hagree := headroom_agrees r { enabled := true, tick := 1, lot := 2 } o buy
    { position := some (-4), underlying := ⟨-4, 0, true, true⟩ } 0 ⟨rfl, rfl, rfl⟩ (by decide)
  exact ⟨(hagree.1 (-4) rfl (by decide) (by decide) (by decide)).1.mpr (by decide),
    hagree.2 (by decide) (by decide) (by decide)⟩

end Agree

end RiskEngine

end FastMM
