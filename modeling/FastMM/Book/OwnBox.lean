/-
  Book/OwnBox.lean --- the box of the market's touch that keeps the mid of a book with our orders.

  Source: `own_box` and `own_touch` of `include/fastmm/core/engine.hpp`, `mid` and `is_valid` of
  `include/fastmm/core/book/l2_book.hpp`.

  While the market's touch stays in the box, which of our levels are shown and which touch is ours
  stay as they are; the mid is then a sum of which one term, both or none moves.
-/
import FastMM.Book.OwnShown
set_option autoImplicit false

namespace FastMM

open List

namespace L2Book

variable {kMaxDepth : Nat}

def isValid (b : L2Book kMaxDepth) : Bool :=
  b.haveSnapshot && !(b.levels .buy).data.isEmpty && !(b.levels .sell).data.isEmpty && !b.crossed

/-- `mid`: zero when a side is empty. -/
def mid (b : L2Book kMaxDepth) : Price :=
  match (b.levels .buy).data.getLast?, (b.levels .sell).data.getLast? with
  | some bid, some ask => (bid.price + ask.price).tdiv 2
  | _, _ => 0

end L2Book

namespace OwnShown

variable {kMaxDepth : Nat}

def kBelow : Int := -9223372036854775808

def kAbove : Int := 9223372036854775807

/-- The bounds `own_box` writes, each exclusive. -/
structure Box where
  bidLo : Int
  bidHi : Int
  askLo : Int
  askHi : Int
  deriving DecidableEq, Repr

/-- One of our bids in `own_box`: the best shown, and the market's ask above it. -/
def bidStep (ba : Int) (s : Int × Int × Int) (l : Level) : Int × Int × Int :=
  if l.price < ba then (max s.1 l.price, max s.2.1 l.price, s.2.2)
  else (s.1, s.2.1, min s.2.2 (l.price + 1))

/-- One of our asks. -/
def askStep (bb : Int) (s : Int × Int × Int) (l : Level) : Int × Int × Int :=
  if bb < l.price then (min s.1 l.price, s.2.1, min s.2.2 l.price)
  else (s.1, max s.2.1 (l.price - 1), s.2.2)

/-- The cast to `int64_t` of `own_box`. -/
def clamp (v : Int) : Int := if v ≤ kBelow then kBelow else if kAbove ≤ v then kAbove else v

def sumLo (lo : Int) : Int := if lo = kBelow then -(2 ^ 127) else lo * 2 + 2

def sumHi (hi : Int) : Int := if hi = kAbove then 2 ^ 127 - 1 else hi * 2 - 1

/-- The bounds that keep the mid, over those there are. -/
def midBox (lo hi : Int) (b0 a0 : Int) (bidOurs askOurs : Bool) (n : Box) : Box :=
  let finiteLo := lo ≠ kBelow
  let finiteHi := hi ≠ kAbove
  if bidOurs = false ∧ askOurs = true then
    { n with
      bidLo := if finiteLo then max n.bidLo (clamp (sumLo lo - a0 - 1)) else n.bidLo
      bidHi := if finiteHi then min n.bidHi (clamp (sumHi hi - a0 + 1)) else n.bidHi }
  else if bidOurs = true ∧ askOurs = false then
    { n with
      askLo := if finiteLo then max n.askLo (clamp (sumLo lo - b0 - 1)) else n.askLo
      askHi := if finiteHi then min n.askHi (clamp (sumHi hi - b0 + 1)) else n.askHi }
  else if bidOurs = false ∧ askOurs = false then
    -- Both move: each takes half of the room the sum has, down and up.
    let s0 := b0 + a0
    let down := s0 - sumLo lo
    let up := sumHi hi - s0
    { bidLo := if finiteLo then max n.bidLo (clamp (b0 - down.tdiv 2 - 1)) else n.bidLo
      bidHi := if finiteHi then min n.bidHi (clamp (b0 + up.tdiv 2 + 1)) else n.bidHi
      askLo := if finiteLo then max n.askLo (clamp (a0 - (down - down.tdiv 2) - 1)) else n.askLo
      askHi := if finiteHi then min n.askHi (clamp (a0 + (up - up.tdiv 2) + 1)) else n.askHi }
  else n

/-- The bounds that keep the touch with ours shown what it is: our best where it is at or better
than the market's, as long as the market's stays at or behind it; else the market's, as long as it
stays ahead of ours. -/
def touchBox (vb va : Int) (bidOurs askOurs : Bool) (n : Box) : Box where
  bidLo := if bidOurs = false ∧ vb ≠ kBelow then max n.bidLo vb else n.bidLo
  bidHi := if bidOurs = true then min n.bidHi (vb + 1) else n.bidHi
  askLo := if askOurs = true then max n.askLo (va - 1) else n.askLo
  askHi := if askOurs = false ∧ va ≠ kAbove then min n.askHi va else n.askHi

/-- Whether the best bid with ours shown is ours. -/
def bidOurs (bb vb : Int) : Bool := decide (vb ≠ kBelow ∧ bb ≤ vb)

def askOurs (ba va : Int) : Bool := decide (va ≠ kAbove ∧ va ≤ ba)

def touchOf (ours : Bool) (own market : Int) : Int := if ours = true then own else market

@[simp] theorem touchOf_true (own market : Int) : touchOf true own market = own := rfl

@[simp] theorem touchOf_false (own market : Int) : touchOf false own market = market := rfl

theorem touchOf_touchOf (ours : Bool) (own market market' : Int) :
    touchOf ours (touchOf ours own market) market' = touchOf ours own market' := by
  cases ours <;> rfl

/-- `own_box` behind its loops: the market's touch, the best of ours shown and the bounds of the
loops. -/
def boxOf (lo hi bb ba vb va : Int) (n : Box) : Option Box :=
  if vb ≠ kBelow ∧ va ≠ kAbove ∧ va ≤ vb then none
  else
    let b0 := touchOf (bidOurs bb vb) vb bb
    let a0 := touchOf (askOurs ba va) va ba
    if b0 + a0 < sumLo lo ∨ sumHi hi < b0 + a0 then none
    else
      let n := midBox lo hi b0 a0 (bidOurs bb vb) (askOurs ba va)
        (touchBox vb va (bidOurs bb vb) (askOurs ba va) n)
      if n.bidLo < bb ∧ bb < n.bidHi ∧ n.askLo < ba ∧ ba < n.askHi then some n else none

/-- `own_box`: `none` when it answers false. -/
def ownBox (o : OwnShown) (b : L2Book kMaxDepth) (lo hi : Int) : Option Box :=
  let bb : Int := (b.best .buy).price
  let ba : Int := (b.best .sell).price
  if hi ≤ lo ∨ b.isValid = false then none
  else if bb ≤ 0 then none
  else
    let bids := (o.levels .buy).data.foldl (bidStep ba) (kBelow, 0, kAbove)
    let asks := (o.levels .sell).data.foldl (askStep bb) (kAbove, 0, kAbove)
    boxOf lo hi bb ba bids.1 asks.1
      { bidLo := asks.2.1, bidHi := asks.2.2, askLo := bids.2.1, askHi := bids.2.2 }

/-- One of our bids in `own_touch`. -/
def touchBid (ma bid : Int) (l : Level) : Int :=
  if (¬ 0 < ma ∨ l.price < ma) ∧ (¬ 0 < bid ∨ bid < l.price) then l.price else bid

/-- One of our asks. -/
def touchAsk (mb ask : Int) (l : Level) : Int :=
  if (¬ 0 < mb ∨ mb < l.price) ∧ (¬ 0 < ask ∨ l.price < ask) then l.price else ask

/-- `own_touch`: the best bid and ask with ours shown, from the market's. -/
def ownTouch (o : OwnShown) (mb ma : Int) : Int × Int :=
  ((o.levels .buy).data.foldl (touchBid ma) mb, (o.levels .sell).data.foldl (touchAsk mb) ma)

/-! ## Our levels beside the market's touch -/

section Peak

variable {α β σ : Type} [LinearOrder α] {shown : β → Prop} {v : β → α}
  {g : σ → β → σ} (π : σ → α) (s : σ) {a b e m : α} {ls : List β}

/-- The greatest of `a` and of the values shown. -/
structure Peak (shown : β → Prop) (v : β → α) (a : α) (ls : List β) (m : α) : Prop where
  start : a ≤ m
  atMost : ∀ l ∈ ls, shown l → v l ≤ m
  reached : m = a ∨ ∃ l ∈ ls, shown l ∧ v l = m

/-- A loop that raises a value to each one shown. -/
theorem foldl_peak [DecidablePred shown] (hg : ∀ t k l, Peak shown v (π s) k (π t) →
    π (g t l) = if shown l then max (π t) (v l) else π t) (ls : List β) :
    Peak shown v (π s) ls (π (ls.foldl g s)) := by
  induction ls using List.reverseRecOn with
  | nil => exact ⟨le_refl _, fun l hl => absurd hl not_mem_nil, Or.inl rfl⟩
  | append_singleton ls l ih =>
    rw [foldl_append, foldl_cons, foldl_nil, hg _ _ _ ih]
    generalize π (ls.foldl g s) = r at ih ⊢
    have hbefore : r = π s ∨ ∃ k ∈ ls ++ [l], shown k ∧ v k = r :=
      ih.reached.imp id fun ⟨k, hk, hboth⟩ => ⟨k, mem_append_left _ hk, hboth⟩
    split_ifs with hl
    · refine ⟨le_max_of_le_left ih.start, fun k hk hks => ?_, ?_⟩
      · rcases mem_append.mp hk with hk | hk
        · exact le_max_of_le_left (ih.atMost k hk hks)
        · rw [mem_singleton.mp hk]
          exact le_max_right _ _
      · rcases max_choice r (v l) with hmax | hmax
        · rw [hmax]
          exact hbefore
        · exact Or.inr ⟨l, mem_append_right _ mem_cons_self, hl, hmax.symm⟩
    · refine ⟨ih.start, fun k hk hks => ?_, hbefore⟩
      rcases mem_append.mp hk with hk | hk
      · exact ih.atMost k hk hks
      · exact absurd hks (mem_singleton.mp hk ▸ hl)

theorem Peak.congr {q : β → Prop} (h : Peak shown v a ls m) (hq : ∀ l ∈ ls, shown l ↔ q l) :
    Peak q v a ls m where
  start := h.start
  atMost l hl hql := h.atMost l hl ((hq l hl).mpr hql)
  reached := h.reached.imp id fun ⟨l, hl, hs, heq⟩ => ⟨l, hl, (hq l hl).mp hs, heq⟩

/-- From a touch `a` the loop ends at the best of ours where that is at or over `a`, else at `a`. -/
theorem Peak.touch (h : Peak shown v a ls m) (hbest : Peak shown v e ls b) (he : e < a)
    {ours : Bool} (hours : ours = true → b ≠ e ∧ a ≤ b) (hmarket : ours = false → b ≠ e → b < a) :
    m = if ours = true then b else a := by
  cases ours with
  | true =>
    obtain ⟨hsome, hbehind⟩ := hours rfl
    obtain ⟨k, hk, hks, rfl⟩ := hbest.reached.resolve_left hsome
    refine le_antisymm ?_ (h.atMost k hk hks)
    rcases h.reached with heq | ⟨l, hl, hls, heq⟩
    · exact heq.le.trans hbehind
    · exact heq ▸ hbest.atMost l hl hls
  | false =>
    rcases h.reached with heq | ⟨l, hl, hls, heq⟩
    · exact heq
    have hle : v l ≤ b := hbest.atMost l hl hls
    refine absurd (h.start.trans_eq heq.symm) (not_le.mpr ?_)
    by_cases hnone : b = e
    · exact (hle.trans_eq hnone).trans_lt he
    · exact hle.trans_lt (hmarket rfl hnone)

theorem raise_eq (p : Prop) [Decidable p] (r x : α) :
    (if p ∧ r < x then x else r) = if p then max r x else r := by
  by_cases hp : p
  · rw [if_pos hp, max_def_lt]
    exact if_congr (and_iff_right hp) rfl rfl
  · rw [if_neg hp, if_neg (fun h => hp h.1)]

end Peak

section Loops

variable {bb ba bid ask : Int} {ls : List Level}

/-- What the loop over our bids says. -/
structure BidLoop (ba : Int) (ls : List Level) (s : Int × Int × Int) : Prop where
  best : Peak (·.price < ba) Level.price kBelow ls s.1
  lo : Peak (·.price < ba) Level.price 0 ls s.2.1
  hi : Peak (α := Intᵒᵈ) (¬ ·.price < ba) ((·.price + 1) : Level → Int) kAbove ls s.2.2

theorem bidLoop (ba : Int) (ls : List Level) :
    BidLoop ba ls (ls.foldl (bidStep ba) (kBelow, 0, kAbove)) where
  best := foldl_peak Prod.fst (kBelow, 0, kAbove) (fun _ _ _ _ => apply_ite _ _ _ _) ls
  lo := foldl_peak (Prod.fst ∘ Prod.snd) (kBelow, 0, kAbove) (fun _ _ _ _ => apply_ite _ _ _ _) ls
  hi := foldl_peak (α := Intᵒᵈ) (Prod.snd ∘ Prod.snd) (kBelow, 0, kAbove)
    (fun _ _ _ _ => (apply_ite _ _ _ _).trans (ite_not _ _ _).symm) ls

/-- What the loop over our asks says. -/
structure AskLoop (bb : Int) (ls : List Level) (s : Int × Int × Int) : Prop where
  best : Peak (α := Intᵒᵈ) (bb < ·.price) Level.price kAbove ls s.1
  lo : Peak (¬ bb < ·.price) (·.price - 1) 0 ls s.2.1
  hi : Peak (α := Intᵒᵈ) (bb < ·.price) Level.price kAbove ls s.2.2

theorem askLoop (bb : Int) (ls : List Level) :
    AskLoop bb ls (ls.foldl (askStep bb) (kAbove, 0, kAbove)) where
  best := foldl_peak (α := Intᵒᵈ) Prod.fst (kAbove, 0, kAbove)
    (fun _ _ _ _ => apply_ite _ _ _ _) ls
  lo := foldl_peak (Prod.fst ∘ Prod.snd) (kAbove, 0, kAbove)
    (fun _ _ _ _ => (apply_ite _ _ _ _).trans (ite_not _ _ _).symm) ls
  hi := foldl_peak (α := Intᵒᵈ) (Prod.snd ∘ Prod.snd) (kAbove, 0, kAbove)
    (fun _ _ _ _ => apply_ite _ _ _ _) ls

/-- The best bid with ours shown is the market's or the best of ours below its ask. -/
theorem touchBid_best (ls : List Level) (hbid : 0 < bid) (hask : 0 < ask) :
    Peak (·.price < ask) Level.price bid ls (ls.foldl (touchBid ask) bid) := by
  refine foldl_peak id bid (fun r _ l h => ?_) ls
  have hpos : 0 < r := hbid.trans_le h.start
  simp only [id, touchBid, hask, hpos, not_true_eq_false, false_or]
  exact raise_eq _ _ _

/-- The best ask with ours shown is the market's or the best of ours above its bid. -/
theorem touchAsk_best (ls : List Level) (hbid : 0 < bid) (hask : 0 < ask) :
    Peak (α := Intᵒᵈ) (bid < ·.price) Level.price ask ls (ls.foldl (touchAsk bid) ask) := by
  refine foldl_peak (α := Intᵒᵈ) id ask (fun (r : Int) _ l h => ?_) ls
  have hpos : 0 < r := by
    rcases h.reached with hr | ⟨k, -, hkb, hr⟩
    · exact hask.trans_eq hr.symm
    · exact (hbid.trans hkb).trans_eq hr
  have hstep : touchAsk bid r l = if bid < l.price ∧ l.price < r then l.price else r := by
    simp only [touchAsk, hbid, hpos, not_true_eq_false, false_or]
  exact hstep.trans (raise_eq (α := Intᵒᵈ) (bid < l.price) r l.price)

/-- A positive touch stays one with ours shown. -/
theorem ownTouch_range (o : OwnShown) (hbid : 0 < bid) (hask : 0 < ask) (hbidTop : bid < kAbove)
    (haskTop : ask < kAbove) :
    ((0 : Int) < (o.ownTouch bid ask).1 ∧ (o.ownTouch bid ask).1 < kAbove) ∧
      (0 : Int) < (o.ownTouch bid ask).2 ∧ (o.ownTouch bid ask).2 < kAbove := by
  obtain ⟨hle, -, hbidFrom⟩ := touchBid_best (o.levels .buy).data hbid hask
  obtain ⟨hge, -, haskFrom⟩ := touchAsk_best (o.levels .sell).data hbid hask
  refine ⟨⟨hbid.trans_le hle, ?_⟩, ?_, lt_of_le_of_lt hge haskTop⟩
  · rcases hbidFrom with heq | ⟨l, -, hla, heq⟩
    · exact heq.trans_lt hbidTop
    · exact heq.symm.trans_lt (hla.trans haskTop)
  · rcases haskFrom with heq | ⟨l, -, hlb, heq⟩
    · exact hask.trans_eq heq.symm
    · exact (hbid.trans hlb).trans_eq heq

end Loops

/-! ## The box -/

section InBox

variable {bid ask bb ba : Int} {ls : List Level} {s : Int × Int × Int}
variable {bidOurs askOurs : Bool}

/-- The same bids of ours are shown under the new ask. -/
theorem BidLoop.same (h : BidLoop ba ls s) (hlo : s.2.1 < ask) (hhi : ask < s.2.2) {l : Level}
    (hl : l ∈ ls) : l.price < ask ↔ l.price < ba := by
  constructor
  · intro hask
    by_contra hnot
    have hle : s.2.2 ≤ l.price + 1 := h.hi.atMost l hl hnot
    exact absurd (hhi.trans_le hle) (not_lt.mpr (Int.add_one_le_iff.mpr hask))
  · intro hba
    exact lt_of_le_of_lt (h.lo.atMost l hl hba) hlo

theorem AskLoop.same (h : AskLoop bb ls s) (hlo : s.2.1 < bid) (hhi : bid < s.2.2) {l : Level}
    (hl : l ∈ ls) : bid < l.price ↔ bb < l.price := by
  constructor
  · intro hbid
    by_contra hnot
    have hle : l.price - 1 ≤ s.2.1 := h.lo.atMost l hl hnot
    exact absurd (hle.trans_lt hlo) (not_lt.mpr (Int.le_sub_one_iff.mpr hbid))
  · intro hbb
    exact lt_of_lt_of_le hhi (h.hi.atMost l hl hbb)

/-- The best bid under the new touch: ours where it was ours and the market's stays behind it, the
market's where it stays ahead of ours. -/
theorem BidLoop.touch (h : BidLoop ba ls s) (hlo : s.2.1 < ask) (hhi : ask < s.2.2)
    (hbid : 0 < bid) (hask : 0 < ask) (ours : Bool) (hours : ours = true → s.1 ≠ kBelow ∧ bid ≤ s.1)
    (hmarket : ours = false → s.1 ≠ kBelow → s.1 < bid) :
    ls.foldl (touchBid ask) bid = touchOf ours s.1 bid :=
  (touchBid_best ls hbid hask).touch (h.best.congr fun _ hl => (h.same hlo hhi hl).symm)
    (lt_trans (by decide) hbid) hours hmarket

theorem AskLoop.touch (h : AskLoop bb ls s) (hlo : s.2.1 < bid) (hhi : bid < s.2.2)
    (hbid : 0 < bid) (hask : 0 < ask) (habove : ask < kAbove) (ours : Bool)
    (hours : ours = true → s.1 ≠ kAbove ∧ s.1 ≤ ask)
    (hmarket : ours = false → s.1 ≠ kAbove → ask < s.1) :
    ls.foldl (touchAsk bid) ask = touchOf ours s.1 ask :=
  (touchAsk_best ls hbid hask).touch (h.best.congr fun _ hl => (h.same hlo hhi hl).symm)
    habove hours hmarket

theorem lt_of_clamp_lt {v x : Int} (h : clamp v < x) (hx : x < kAbove) : v < x := by
  unfold clamp at h
  split_ifs at h with hlow hhigh
  · exact lt_of_le_of_lt hlow h
  · exact absurd h (not_lt.mpr hx.le)
  · exact h

theorem lt_of_lt_clamp {v x : Int} (h : x < clamp v) (hx : 0 < x) : x < v := by
  unfold clamp at h
  split_ifs at h with hlow hhigh
  · unfold kBelow at h
    omega
  · exact lt_of_lt_of_le h hhigh
  · exact h

theorem le_raised (c : Prop) [Decidable c] (x v : Int) : x ≤ if c then max x v else x := by
  split_ifs
  · exact le_max_left _ _
  · exact le_refl _

theorem lowered_le (c : Prop) [Decidable c] (x v : Int) : (if c then min x v else x) ≤ x := by
  split_ifs
  · exact min_le_left _ _
  · exact le_refl _

/-- What `midBox` adds to the bounds only narrows them. -/
theorem midBox_within (lo hi b0 a0 : Int) (bidOurs askOurs : Bool) (n : Box) :
    n.bidLo ≤ (midBox lo hi b0 a0 bidOurs askOurs n).bidLo ∧
      (midBox lo hi b0 a0 bidOurs askOurs n).bidHi ≤ n.bidHi ∧
      n.askLo ≤ (midBox lo hi b0 a0 bidOurs askOurs n).askLo ∧
      (midBox lo hi b0 a0 bidOurs askOurs n).askHi ≤ n.askHi := by
  cases bidOurs <;> cases askOurs
  · exact ⟨le_raised _ _ _, lowered_le _ _ _, le_raised _ _ _, lowered_le _ _ _⟩
  · exact ⟨le_raised _ _ _, lowered_le _ _ _, le_refl _, le_refl _⟩
  · exact ⟨le_refl _, le_refl _, le_raised _ _ _, lowered_le _ _ _⟩
  · exact ⟨le_refl _, le_refl _, le_refl _, le_refl _⟩

/-- A touch. -/
def Box.Holds (n : Box) (bid ask : Int) : Prop :=
  n.bidLo < bid ∧ bid < n.bidHi ∧ n.askLo < ask ∧ ask < n.askHi

/-- In the box the sum of the touch with ours shown stays at or above its least. -/
theorem midBox_sumLo {lo hi b0 a0 : Int} {n : Box}
    (hfinite : lo ≠ kBelow) (hsum : sumLo lo ≤ b0 + a0) (hbid : bid < kAbove) (hask : ask < kAbove)
    (h : (midBox lo hi b0 a0 bidOurs askOurs n).Holds bid ask) :
    sumLo lo ≤ touchOf bidOurs b0 bid + touchOf askOurs a0 ask := by
  obtain ⟨hbidLo, -, haskLo, -⟩ := h
  unfold midBox at hbidLo haskLo
  cases bidOurs <;> cases askOurs
  · simp only [touchOf_false, Bool.false_eq_true, and_self, and_false, false_and, if_false,
      if_true, hfinite, ne_eq, not_false_eq_true] at hbidLo haskLo ⊢
    have hb := lt_of_clamp_lt (lt_of_le_of_lt (le_max_right _ _) hbidLo) hbid
    have ha := lt_of_clamp_lt (lt_of_le_of_lt (le_max_right _ _) haskLo) hask
    omega
  · simp only [touchOf_true, touchOf_false, Bool.false_eq_true, Bool.true_eq_false, and_self,
      and_false, if_false, if_true, hfinite, ne_eq, not_false_eq_true] at hbidLo ⊢
    have hb := lt_of_clamp_lt (lt_of_le_of_lt (le_max_right _ _) hbidLo) hbid
    omega
  · simp only [touchOf_true, touchOf_false, Bool.false_eq_true, Bool.true_eq_false, and_self,
      false_and, if_false, if_true, hfinite, ne_eq, not_false_eq_true] at haskLo ⊢
    have ha := lt_of_clamp_lt (lt_of_le_of_lt (le_max_right _ _) haskLo) hask
    omega
  · simpa using hsum

/-- It stays at or below its most. -/
theorem midBox_sumHi {lo hi b0 a0 : Int} {n : Box}
    (hfinite : hi ≠ kAbove) (hsum : b0 + a0 ≤ sumHi hi) (hbid : 0 < bid) (hask : 0 < ask)
    (h : (midBox lo hi b0 a0 bidOurs askOurs n).Holds bid ask) :
    touchOf bidOurs b0 bid + touchOf askOurs a0 ask ≤ sumHi hi := by
  obtain ⟨-, hbidHi, -, haskHi⟩ := h
  unfold midBox at hbidHi haskHi
  cases bidOurs <;> cases askOurs
  · simp only [touchOf_false, Bool.false_eq_true, and_self, and_false, false_and, if_false,
      if_true, hfinite, ne_eq, not_false_eq_true] at hbidHi haskHi ⊢
    have hb := lt_of_lt_clamp (lt_of_lt_of_le hbidHi (min_le_right _ _)) hbid
    have ha := lt_of_lt_clamp (lt_of_lt_of_le haskHi (min_le_right _ _)) hask
    omega
  · simp only [touchOf_true, touchOf_false, Bool.false_eq_true, Bool.true_eq_false, and_self,
      and_false, if_false, if_true, hfinite, ne_eq, not_false_eq_true] at hbidHi ⊢
    have hb := lt_of_lt_clamp (lt_of_lt_of_le hbidHi (min_le_right _ _)) hbid
    omega
  · simp only [touchOf_true, touchOf_false, Bool.false_eq_true, Bool.true_eq_false, and_self,
      false_and, if_false, if_true, hfinite, ne_eq, not_false_eq_true] at haskHi ⊢
    have ha := lt_of_lt_clamp (lt_of_lt_of_le haskHi (min_le_right _ _)) hask
    omega
  · simpa using hsum

end InBox

/-! ## The book with ours shown -/

section Shown

open L2Book

variable {b : L2Book kMaxDepth} {bid ask : Level}
variable {b₀ : L2Book kMaxDepth}

/-- The prices of a side. -/
def prices (b : L2Book kMaxDepth) (side : Side) : List Price :=
  (b.levels side).data.map Level.price

theorem prices_setLevels (b : L2Book kMaxDepth) (side : Side) (v : Levels kMaxDepth)
    (other : Side) :
    prices (b.setLevels side v) other =
      if other = side then v.data.map Level.price else prices b other := by
  unfold prices L2Book.setLevels
  simp only [Function.update_apply]
  split_ifs <;> rfl

/-- A level of ours that finds room adds its price to its side. -/
theorem mem_prices_addOwn (h : b.SidesSorted) {side : Side} {l : Level}
    (hroom : (prices b side).length < kMaxDepth + kOwnLevels) (other : Side) (p : Price) :
    p ∈ prices (b.addOwn side l.price l.qty).1 other ↔
      p ∈ prices b other ∨ (other = side ∧ p = l.price) := by
  have hloc := locate_spec (h side) l.price
  unfold addOwn
  simp only
  generalize locate (b.levels side) side l.price = r at hloc ⊢
  obtain ⟨i, found⟩ := r
  have hsize : (b.levels side).size = (prices b side).length := (length_map _).symm
  cases found with
  | true =>
    obtain ⟨k, hk, hprice⟩ := hloc.found.mp rfl
    obtain ⟨hlt, hget⟩ := List.getElem?_eq_some_iff.mp hk
    have hsame : (((b.levels side).set i { k with qty := k.qty + l.qty }).data.map Level.price) =
        prices b side := by
      show ((b.levels side).data.set i _).map Level.price = _
      rw [map_set]
      have hat : (List.map Level.price (b.levels side).data)[i] = k.price := by
        rw [getElem_map, hget]
      rw [← hat]
      exact set_getElem_self _
    rw [if_pos rfl, get_eq hk, prices_setLevels, hsame]
    split_ifs with hother
    · rw [hother]
      refine ⟨Or.inl, fun hor => hor.elim id fun hown => ?_⟩
      rw [hown.2, ← hprice]
      exact mem_map.mpr ⟨k, mem_of_getElem? hk, rfl⟩
    · exact ⟨Or.inl, fun hor => hor.elim id fun hown => absurd hown.1 hother⟩
  | false =>
    have hle : i ≤ (b.levels side).data.length := hloc.place.le_length
    have hfits : ¬ ((b.levels side).size = kMaxDepth + kOwnLevels ∨ (b.levels side).size < i) := by
      rintro (hfull | hpast)
      · omega
      · exact absurd hle (not_le.mpr hpast)
    have hins : ((b.levels side).insertAt i ⟨l.price, l.qty⟩).data =
        (b.levels side).data.insertIdx i ⟨l.price, l.qty⟩ := by
      unfold StaticVector.insertAt
      rw [dif_neg hfits]
    rw [if_neg Bool.false_ne_true, if_neg hfits]
    rw [prices_setLevels, hins]
    split_ifs with hother
    · rw [hother, mem_map]
      simp only [mem_insertIdx hle, true_and]
      unfold prices
      rw [mem_map]
      constructor
      · rintro ⟨k, rfl | hk, rfl⟩
        · exact Or.inr rfl
        · exact Or.inl ⟨k, hk, rfl⟩
      · rintro (⟨k, hk, rfl⟩ | rfl)
        · exact ⟨k, Or.inr hk, rfl⟩
        · exact ⟨_, Or.inl rfl, rfl⟩
    · exact ⟨Or.inl, fun hor => hor.elim id fun hown => absurd hown.1 hother⟩

/-- And takes one place there. -/
theorem length_prices_addOwn (b : L2Book kMaxDepth) (side : Side) (l : Level) (other : Side) :
    (prices (b.addOwn side l.price l.qty).1 other).length ≤
      (prices b other).length + if other = side then 1 else 0 := by
  have hrewrite : ∀ v : Levels kMaxDepth, v.data.length ≤ (b.levels side).data.length + 1 →
      (prices (b.setLevels side v) other).length ≤
        (prices b other).length + if other = side then 1 else 0 := by
    intro v hv
    rw [prices_setLevels]
    split_ifs with hother
    · rw [hother]
      unfold prices
      rw [length_map, length_map]
      exact hv
    · exact le_refl _
  unfold addOwn
  simp only
  generalize locate (b.levels side) side l.price = r
  obtain ⟨i, found⟩ := r
  by_cases hfound : found = true
  · rw [if_pos hfound]
    exact hrewrite _ ((length_set (i := i)).le.trans (Nat.le_succ _))
  rw [if_neg hfound]
  by_cases hfull : (b.levels side).size = kMaxDepth + kOwnLevels ∨ (b.levels side).size < i
  · rw [if_pos hfull]
    exact Nat.le_add_right _ _
  rw [if_neg hfull]
  refine hrewrite _ ?_
  unfold StaticVector.insertAt
  rw [dif_neg hfull]
  rw [length_insertIdx]
  split <;> omega

/-- A book after levels of ours were shown on one side of it. -/
structure ShownOn (b₀ : L2Book kMaxDepth) (side : Side) (seen : Level → Bool) (ls : List Level)
    (b : L2Book kMaxDepth) : Prop where
  sorted : b.SidesSorted
  prices : ∀ other p, p ∈ prices b other ↔
    p ∈ OwnShown.prices b₀ other ∨ (other = side ∧ ∃ l ∈ ls, seen l = true ∧ p = l.price)
  room : ∀ other, (OwnShown.prices b other).length ≤
    (OwnShown.prices b₀ other).length + if other = side then ls.length else 0

theorem shownOn_foldl (hsorted : b₀.SidesSorted) (side : Side)
    (notes : StaticVector Added (2 * kOwnLevels)) (ls : List Level)
    (hroom : (prices b₀ side).length + ls.length ≤ kMaxDepth + kOwnLevels) :
    ShownOn b₀ side (fun l => !through bid ask side l) ls
      (ls.foldl (showLevel bid ask side) (b₀, notes)).1 := by
  induction ls using List.reverseRecOn with
  | nil => exact ⟨hsorted, fun other p => by simp, fun other => by simp⟩
  | append_singleton ls l ih =>
    rw [length_append, length_singleton] at hroom
    have ih := ih (by omega)
    rw [foldl_append]
    show ShownOn b₀ side _ (ls ++ [l]) (showLevel bid ask side _ l).1
    generalize ls.foldl (showLevel bid ask side) (b₀, notes) = s at ih ⊢
    have hbook : (showLevel bid ask side s l).1 =
        if through bid ask side l = true then s.1 else (s.1.addOwn side l.price l.qty).1 := by
      unfold showLevel
      split_ifs with hthrough
      · rfl
      · split <;> simp_all
    rw [hbook]
    split_ifs with hthrough
    · refine ⟨ih.sorted, fun other p => ?_, fun other => (ih.room other).trans ?_⟩
      · rw [ih.prices]
        simp [mem_append, or_and_right, exists_or, hthrough]
      · rw [length_append]
        split_ifs <;> omega
    have hspace : (OwnShown.prices s.1 side).length < kMaxDepth + kOwnLevels := by
      have hlen := ih.room side
      rw [if_pos rfl] at hlen
      omega
    refine ⟨(addOwn_spec ih.sorted side l.price l.qty).1, fun other p => ?_, fun other => ?_⟩
    · rw [mem_prices_addOwn ih.sorted hspace, ih.prices]
      have hseen : (!through bid ask side l) = true := by simp [hthrough]
      constructor
      · rintro ((hp | ⟨hside, k, hk, hkseen, rfl⟩) | ⟨hside, rfl⟩)
        · exact Or.inl hp
        · exact Or.inr ⟨hside, k, mem_append_left _ hk, hkseen, rfl⟩
        · exact Or.inr ⟨hside, l, mem_append_right _ mem_cons_self, hseen, rfl⟩
      · rintro (hp | ⟨hside, k, hk, hkseen, rfl⟩)
        · exact Or.inl (Or.inl hp)
        · rcases mem_append.mp hk with hk | hk
          · exact Or.inl (Or.inr ⟨hside, k, hk, hkseen, rfl⟩)
          · exact Or.inr ⟨hside, congrArg Level.price (mem_singleton.mp hk)⟩
    · have hone := length_prices_addOwn s.1 side l other
      have hlen := ih.room other
      rw [length_append, length_singleton]
      split_ifs at hone hlen ⊢ <;> omega

/-- The best level of a side is as good as any of its prices. -/
theorem best_of_prices (h : b.SidesSorted) {side : Side} {p : Price} (hp : p ∈ prices b side)
    (hbest : ∀ p' ∈ prices b side, goodness side p' ≤ goodness side p) :
    ∃ l, (b.levels side).data.getLast? = some l ∧ l.price = p := by
  obtain ⟨k, hk, rfl⟩ := mem_map.mp hp
  have hne : (b.levels side).data ≠ [] := ne_nil_of_mem hk
  refine ⟨_, getLast?_eq_getLast_of_ne_nil hne, ?_⟩
  have hlast : goodness side ((b.levels side).data.getLast hne).price ≤ goodness side k.price :=
    hbest _ (mem_map.mpr ⟨_, getLast_mem hne, rfl⟩)
  have hsorted := h side
  rw [← dropLast_append_getLast hne] at hsorted hk
  rcases mem_append.mp hk with hin | hin
  · have hlt := (pairwise_append.mp hsorted).2.2 k hin _ mem_cons_self
    exact absurd hlt (not_lt.mpr hlast)
  · exact congrArg Level.price (mem_singleton.mp hin).symm

/-- A side's best level is at least as good as its others. -/
theorem prices_le_best (h : b.SidesSorted) {side : Side} {l : Level}
    (hl : (b.levels side).data.getLast? = some l) :
    l.price ∈ prices b side ∧ ∀ p ∈ prices b side, goodness side p ≤ goodness side l.price := by
  refine ⟨mem_map.mpr ⟨l, mem_of_getLast? hl, rfl⟩, fun p hp => ?_⟩
  obtain ⟨k, hk, rfl⟩ := mem_map.mp hp
  have hsorted := h side
  obtain ⟨rest, hdata⟩ := List.getLast?_eq_some_iff.mp hl
  rw [hdata] at hsorted hk
  rcases mem_append.mp hk with hin | hin
  · exact ((pairwise_append.mp hsorted).2.2 k hin l mem_cons_self).le
  · rw [mem_singleton.mp hin]

/-- The best level of a side with more prices on it. -/
theorem best_with_more (h₀ : b₀.SidesSorted) (h : b.SidesSorted)
    {side : Side} {l₀ : Level} (hl₀ : (b₀.levels side).data.getLast? = some l₀) {r : Price}
    {more : Price → Prop} (hprices : ∀ p, p ∈ prices b side ↔ p ∈ prices b₀ side ∨ more p)
    (hr : goodness side l₀.price ≤ goodness side r)
    (hmore : ∀ p, more p → goodness side p ≤ goodness side r) (hfrom : r = l₀.price ∨ more r) :
    ∃ l, (b.levels side).data.getLast? = some l ∧ l.price = r := by
  obtain ⟨hin, hbest⟩ := prices_le_best h₀ hl₀
  refine best_of_prices h ((hprices r).mpr (hfrom.imp (fun heq => by rwa [heq]) id)) fun p hp => ?_
  rcases (hprices p).mp hp with hp | hp
  · exact (hbest p hp).trans hr
  · exact hmore p hp

/-- A market book, with levels in room for ours behind them. -/
structure MarketBook (b : L2Book kMaxDepth) (bid ask : Int) : Prop where
  sorted : b.SidesSorted
  depth : ∀ side, (b.levels side).size ≤ kMaxDepth
  bid : ∃ l, (b.levels .buy).data.getLast? = some l ∧ 0 < l.qty ∧ l.price = bid
  ask : ∃ l, (b.levels .sell).data.getLast? = some l ∧ 0 < l.qty ∧ l.price = ask

/-- The book that shows ours has the touch that `own_touch` says. -/
theorem mid_showOwn {bid ask : Int} (o : OwnShown) (hb : MarketBook b bid ask) (hbid : 0 < bid)
    (hask : 0 < ask) :
    (o.showOwn b).1.mid = ((o.ownTouch bid ask).1 + (o.ownTouch bid ask).2).tdiv 2 := by
  obtain ⟨lb, hlb, hqb, hpb⟩ := hb.bid
  obtain ⟨la, hla, hqa, hpa⟩ := hb.ask
  have hbestBid : b.best .buy = lb := by
    unfold L2Book.best
    rw [hlb]
    rfl
  have hbestAsk : b.best .sell = la := by
    unfold L2Book.best
    rw [hla]
    rfl
  have hdepth : ∀ side, (prices b side).length ≤ kMaxDepth := by
    intro side
    unfold prices
    rw [length_map]
    exact hb.depth side
  have hbuy : ShownOn b .buy (fun l => !through lb la .buy l) (o.levels .buy).data
      ((o.levels .buy).data.foldl (showLevel lb la .buy) (b, o.added)).1 :=
    shownOn_foldl hb.sorted .buy o.added _ (Nat.add_le_add (hdepth .buy) (o.levels .buy).length_le)
  unfold showOwn
  simp only [hbestBid, hbestAsk]
  generalize (o.levels .buy).data.foldl (showLevel lb la .buy) (b, o.added) = s₁ at hbuy ⊢
  have hspace : (prices s₁.1 .sell).length ≤ kMaxDepth :=
    (hbuy.room .sell).trans (hdepth .sell)
  have hsell : ShownOn s₁.1 .sell (fun l => !through lb la .sell l) (o.levels .sell).data
      ((o.levels .sell).data.foldl (showLevel lb la .sell) (s₁.1, s₁.2)).1 :=
    shownOn_foldl hbuy.sorted .sell s₁.2 _ (Nat.add_le_add hspace (o.levels .sell).length_le)
  generalize (o.levels .sell).data.foldl (showLevel lb la .sell) s₁ = s₂ at hsell ⊢
  obtain ⟨hle, hbids, hbidFrom⟩ := touchBid_best (o.levels .buy).data hbid hask
  obtain ⟨hge, hasks, haskFrom⟩ := touchAsk_best (o.levels .sell).data hbid hask
  have hseenBuy : ∀ l, (!through lb la .buy l) = true ↔ l.price < ask := by
    intro l
    unfold through
    simp [hqa, hpa]
  have hseenSell : ∀ l, (!through lb la .sell l) = true ↔ bid < l.price := by
    intro l
    unfold through
    simp [hqb, hpb]
  obtain ⟨l, hl, hlp⟩ := @best_with_more _ s₂.1 b hb.sorted hsell.sorted .buy lb hlb
    ((o.levels .buy).data.foldl (touchBid ask) bid)
    (fun p => ∃ l ∈ (o.levels .buy).data, l.price < ask ∧ p = l.price) (fun p => by
      rw [hsell.prices, hbuy.prices]
      simp [hseenBuy]) (hpb ▸ hle)
    (fun p ⟨l, hl, hla, hp⟩ => hp ▸ hbids l hl hla)
    (hbidFrom.imp (fun heq => heq.trans hpb.symm) fun ⟨l, hl, hla, heq⟩ => ⟨l, hl, hla, heq.symm⟩)
  obtain ⟨k, hk, hkp⟩ := @best_with_more _ s₂.1 b hb.sorted hsell.sorted .sell la hla
    ((o.levels .sell).data.foldl (touchAsk bid) ask)
    (fun p => ∃ l ∈ (o.levels .sell).data, bid < l.price ∧ p = l.price) (fun p => by
      rw [hsell.prices, hbuy.prices]
      simp [hseenSell]) (Int.neg_le_neg (hpa ▸ hge))
    (fun p ⟨l, hl, hlb, hp⟩ => Int.neg_le_neg (hp ▸ hasks l hl hlb))
    (haskFrom.imp (fun heq => heq.trans hpa.symm) fun ⟨l, hl, hlb, heq⟩ => ⟨l, hl, hlb, heq.symm⟩)
  unfold L2Book.mid ownTouch
  rw [hl, hk]
  simp only [hlp, hkp]

end Shown

/-! ## The box is sound -/

section Sound

open L2Book

variable {o : OwnShown} {b : L2Book kMaxDepth} {lo hi : Int} {box : Box}

/-- What `own_box` found when it answers true. -/
theorem boxOf_spec {bb ba vb va : Int} {n box : Box} (h : boxOf lo hi bb ba vb va n = some box) :
    box = midBox lo hi (touchOf (bidOurs bb vb) vb bb) (touchOf (askOurs ba va) va ba)
        (bidOurs bb vb) (askOurs ba va) (touchBox vb va (bidOurs bb vb) (askOurs ba va) n) ∧
      sumLo lo ≤ touchOf (bidOurs bb vb) vb bb + touchOf (askOurs ba va) va ba ∧
      touchOf (bidOurs bb vb) vb bb + touchOf (askOurs ba va) va ba ≤ sumHi hi := by
  unfold boxOf at h
  simp only at h
  generalize touchOf (bidOurs bb vb) vb bb = b0 at h ⊢
  generalize touchOf (askOurs ba va) va ba = a0 at h ⊢
  generalize midBox lo hi b0 a0 _ _ _ = m at h ⊢
  split_ifs at h with hcross hsum hin
  obtain ⟨hlo, hhi⟩ := not_or.mp hsum
  exact ⟨(Option.some.inj h).symm, not_lt.mp hlo, not_lt.mp hhi⟩

/-- In the box our touch stays ours and the market's stays the market's. -/
theorem touchBox_ours {bb ba vb va bid ask : Int} {n : Box}
    (h : (touchBox vb va (bidOurs bb vb) (askOurs ba va) n).Holds bid ask) :
    (bidOurs bb vb = true → vb ≠ kBelow ∧ bid ≤ vb) ∧
      (bidOurs bb vb = false → vb ≠ kBelow → vb < bid) ∧
      (askOurs ba va = true → va ≠ kAbove ∧ va ≤ ask) ∧
      (askOurs ba va = false → va ≠ kAbove → ask < va) := by
  obtain ⟨hbidLo, hbidHi, haskLo, haskHi⟩ := h
  unfold touchBox at hbidLo hbidHi haskLo haskHi
  dsimp only at hbidLo hbidHi haskLo haskHi
  refine ⟨fun hours => ?_, fun hours hsome => ?_, fun hours => ?_, fun hours hsome => ?_⟩
  · rw [if_pos hours] at hbidHi
    exact ⟨(of_decide_eq_true hours).1, Int.lt_add_one_iff.mp (hbidHi.trans_le (min_le_right _ _))⟩
  · rw [if_pos ⟨hours, hsome⟩] at hbidLo
    exact (le_max_right _ _).trans_lt hbidLo
  · rw [if_pos hours] at haskLo
    exact ⟨(of_decide_eq_true hours).1, Int.sub_one_lt_iff.mp ((le_max_right _ _).trans_lt haskLo)⟩
  · rw [if_pos ⟨hours, hsome⟩] at haskHi
    exact haskHi.trans_le (min_le_right _ _)

theorem touchBox_within (vb va : Int) (bidOurs askOurs : Bool) (n : Box) :
    n.bidLo ≤ (touchBox vb va bidOurs askOurs n).bidLo ∧
      (touchBox vb va bidOurs askOurs n).bidHi ≤ n.bidHi ∧
      n.askLo ≤ (touchBox vb va bidOurs askOurs n).askLo ∧
      (touchBox vb va bidOurs askOurs n).askHi ≤ n.askHi := by
  refine ⟨?_, ?_, ?_, ?_⟩
  · exact le_raised _ _ _
  · exact lowered_le _ _ _
  · exact le_raised _ _ _
  · exact lowered_le _ _ _

theorem Box.Holds.mono {n n' : Box} {bid ask : Int}
    (hwithin : n.bidLo ≤ n'.bidLo ∧ n'.bidHi ≤ n.bidHi ∧ n.askLo ≤ n'.askLo ∧ n'.askHi ≤ n.askHi)
    (h : n'.Holds bid ask) : n.Holds bid ask :=
  ⟨hwithin.1.trans_lt h.1, h.2.1.trans_le hwithin.2.1, hwithin.2.2.1.trans_lt h.2.2.1,
    h.2.2.2.trans_le hwithin.2.2.2⟩

/-- In the box the same levels of ours are shown as now, and the mid of the book that shows them
stays strictly within the band. -/
theorem ownBox_sound (h : o.ownBox b lo hi = some box) {bid ask : Int} (hin : box.Holds bid ask) :
    (∀ l ∈ (o.levels .buy).data, l.price < ask ↔ l.price < (b.best .sell).price) ∧
      (∀ l ∈ (o.levels .sell).data, bid < l.price ↔ (b.best .buy).price < l.price) ∧
      lo < ((o.ownTouch bid ask).1 + (o.ownTouch bid ask).2) / 2 ∧
      ((o.ownTouch bid ask).1 + (o.ownTouch bid ask).2) / 2 < hi ∧
      ∀ b' : L2Book kMaxDepth, MarketBook b' bid ask →
        (o.showOwn b').1.mid = ((o.ownTouch bid ask).1 + (o.ownTouch bid ask).2) / 2 := by
  unfold ownBox at h
  simp only at h
  split_ifs at h
  have hbids := bidLoop (b.best .sell).price (o.levels .buy).data
  have hasks := askLoop (b.best .buy).price (o.levels .sell).data
  obtain ⟨hbox, hlo, hhi⟩ := boxOf_spec h
  generalize (o.levels .buy).data.foldl (bidStep (b.best .sell).price) (kBelow, 0, kAbove) = sb
    at hbox hlo hhi hbids
  generalize (o.levels .sell).data.foldl (askStep (b.best .buy).price) (kAbove, 0, kAbove) = sa
    at hbox hlo hhi hasks
  rw [hbox] at hin
  have htouch := hin.mono (midBox_within ..)
  obtain ⟨hbidOurs, hbidMarket, haskOurs, haskMarket⟩ := touchBox_ours htouch
  obtain ⟨hbidLo, hbidHi, haskLo, haskHi⟩ := htouch.mono (touchBox_within ..)
  have hbid : 0 < bid := hasks.lo.start.trans_lt hbidLo
  have hask : 0 < ask := hbids.lo.start.trans_lt haskLo
  have hbidTop : bid < kAbove := hbidHi.trans_le hasks.hi.start
  have haskTop : ask < kAbove := haskHi.trans_le hbids.hi.start
  have hx : (o.ownTouch bid ask).1 = touchOf (bidOurs (b.best .buy).price sb.1) sb.1 bid :=
    hbids.touch haskLo haskHi hbid hask _ hbidOurs hbidMarket
  have hy : (o.ownTouch bid ask).2 = touchOf (askOurs (b.best .sell).price sa.1) sa.1 ask :=
    hasks.touch hbidLo hbidHi hbid hask haskTop _ haskOurs haskMarket
  have hrange := o.ownTouch_range hbid hask hbidTop haskTop
  refine ⟨fun l hl => hbids.same haskLo haskHi hl, fun l hl => hasks.same hbidLo hbidHi hl, ?_, ?_,
    fun b' hb' => ?_⟩
  · by_cases hnone : lo = kBelow
    · unfold kBelow at hnone
      omega
    have hsum := midBox_sumLo hnone hlo hbidTop haskTop hin
    rw [touchOf_touchOf, touchOf_touchOf, ← hx, ← hy] at hsum
    unfold sumLo at hsum
    rw [if_neg hnone] at hsum
    omega
  · by_cases hnone : hi = kAbove
    · omega
    have hsum := midBox_sumHi hnone hhi hbid hask hin
    rw [touchOf_touchOf, touchOf_touchOf, ← hx, ← hy] at hsum
    unfold sumHi at hsum
    rw [if_neg hnone] at hsum
    omega
  · rw [mid_showOwn o hb' hbid hask]
    exact Int.tdiv_eq_ediv_of_nonneg (by omega)

/-- A bid of ours above the market's and an ask of ours behind it. -/
def oneEachSide : OwnShown where
  levels
    | .buy => ⟨[⟨100, 1⟩], by decide⟩
    | .sell => ⟨[⟨120, 4⟩], by decide⟩

theorem ownBox_sound_bid :
    100 < ((oneEachSide.ownTouch 99 109).1 + (oneEachSide.ownTouch 99 109).2) / 2 :=
  (@ownBox_sound 2 oneEachSide (run 2 [.snapshot [⟨98, 5⟩] [⟨110, 5⟩] 1 1]) 100 110
    ⟨0, 101, 101, 120⟩ (by decide +kernel) 99 109 (by unfold Box.Holds; decide)).2.2.1

end Sound

end OwnShown

end FastMM
