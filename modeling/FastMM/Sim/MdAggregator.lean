/-
  Sim/MdAggregator.lean --- the aggregated market data of the simulated exchange.

  Source: `include/fastmm/sim/md_aggregator.hpp`.

  When a flush is due is the owner's affair: here a flush may come at any time.  The index of a
  side is a function, with its number of entries beside it.
-/
import FastMM.Sim.PriceTime
set_option autoImplicit false

namespace FastMM.Sim

open Function

/-! ## What is read of a book -/

namespace SimBook

variable (b : SimBook)

def bestLevel (s : Side) : Level :=
  match b.best s with
  | none => {}
  | some l => { price := l.price, qty := l.qty }

/-- `snapshot`: the best levels of a side, at most so many. -/
def snapshot (s : Side) (max : Nat) : List Level :=
  ((b.levels s).data.reverse.take max).map fun l => { price := l.price, qty := l.qty }

end SimBook

/-! ## The aggregator -/

def kMaxAggLevels : Nat := 1024

/-- `OpenHashMap<int64_t, uint32_t, kMaxAggLevels * 2>::kMaxSize`. -/
def kMaxAggIndex : Nat := kMaxAggLevels * 2 - kMaxAggLevels * 2 / 8

structure MdAggregatorConfig where
  snapshotDepth : Nat := 256
  bookTicker : Bool := true
  deriving DecidableEq, Repr

structure SideAgg where
  changes : StaticVector Level kMaxAggLevels := .nil
  index : Price → Option Nat := fun _ => none
  indexed : Nat := 0

structure InstState where
  side : Side → SideAgg := fun _ => {}
  firstUid : Nat := 0
  lastUid : Nat := 0
  lastBid : Level := {}
  lastAsk : Level := {}
  dirty : Bool := false
  overflow : Bool := false
  snapshotSent : Bool := false

namespace InstState

variable (st : InstState)

def clear : InstState :=
  { st with
    side := fun _ => {}
    firstUid := 0
    lastUid := 0
    dirty := false
    overflow := false }

def onBookChange (side : Side) (px : Price) (qty : Qty) (uid : Nat) : InstState :=
  let st :=
    { st with
      firstUid := if st.firstUid = 0 then uid else st.firstUid
      lastUid := uid
      dirty := true }
  if st.overflow = true then st
  else
    let a := st.side side
    match a.index px with
    | some j =>
      let changes := a.changes.set j { a.changes.get j with qty := qty }
      { st with side := update st.side side { a with changes := changes } }
    | none =>
      if a.changes.size = kMaxAggLevels ∨ kMaxAggIndex ≤ a.indexed then { st with overflow := true }
      else
        { st with
          side := update st.side side
            { changes := a.changes.pushBack { price := px, qty := qty }
              index := update a.index px (some a.changes.size)
              indexed := a.indexed + 1 } }

end InstState

/-- What is published. -/
inductive MdMsg where
  | bookSnapshot (id : InstrumentId) (bids asks : List Level) (updateId : Nat) (exchTs : Timestamp)
  | bookDelta (id : InstrumentId) (bids asks : List Level) (first last : Nat) (exchTs : Timestamp)
  | bookTicker (id : InstrumentId) (bid ask : Level) (venueSeq : Nat) (exchTs : Timestamp)
  deriving DecidableEq, Repr

structure MdAggregator where
  cfg : MdAggregatorConfig
  count : Nat
  st : Nat → InstState := fun _ => {}

namespace MdAggregator

def create (instruments : Nat) (cfg : MdAggregatorConfig) : MdAggregator where
  cfg := cfg
  count := min (max instruments 1) kMaxInstruments

variable (g : MdAggregator)

def setState (i : Nat) (st : InstState) : MdAggregator :=
  { g with st := update g.st i st }

@[simp] theorem setState_self (i : Nat) (st : InstState) : (g.setState i st).st i = st :=
  update_self ..

theorem setState_of_ne {i j : Nat} (h : j ≠ i) (st : InstState) : (g.setState i st).st j = g.st j :=
  update_of_ne h _ _

def onBookChange (id : InstrumentId) (side : Side) (px : Price) (qty : Qty) (uid : Nat) :
    MdAggregator :=
  if g.count ≤ id.value then g
  else g.setState id.value ((g.st id.value).onBookChange side px qty uid)

/-- A call of the engine, as the owner forwards it. -/
def hear : SinkCall → MdAggregator
  | .onBookChange id side px qty uid => g.onBookChange id side px qty uid
  | _ => g

def emitSnapshot (me : MatchingEngine) (id : InstrumentId) (now : Timestamp) :
    List MdMsg × MdAggregator :=
  if g.count ≤ id.value then ([], g)
  else
    let b := me.book id
    ([.bookSnapshot id (b.snapshot .buy g.cfg.snapshotDepth) (b.snapshot .sell g.cfg.snapshotDepth)
        b.updateId now],
      g.setState id.value { (g.st id.value).clear with snapshotSent := true })

/-- The first part of `flush_instrument`. -/
def flushBook (me : MatchingEngine) (id : InstrumentId) (now : Timestamp) :
    List MdMsg × MdAggregator :=
  let st := g.st id.value
  if st.snapshotSent = false ∨ st.overflow = true then g.emitSnapshot me id now
  else if st.dirty = true then
    ([.bookDelta id (st.side .buy).changes.data (st.side .sell).changes.data st.firstUid st.lastUid
        now],
      g.setState id.value st.clear)
  else ([], g)

/-- The last part of `flush_instrument`. -/
def flushTicker (me : MatchingEngine) (id : InstrumentId) (now : Timestamp) :
    List MdMsg × MdAggregator :=
  let st := g.st id.value
  let b := me.book id
  if g.cfg.bookTicker = true ∧ (b.bestLevel .buy ≠ st.lastBid ∨ b.bestLevel .sell ≠ st.lastAsk) then
    ([.bookTicker id (b.bestLevel .buy) (b.bestLevel .sell) b.updateId now],
      g.setState id.value { st with lastBid := b.bestLevel .buy, lastAsk := b.bestLevel .sell })
  else ([], g)

def flushInstrument (me : MatchingEngine) (id : InstrumentId) (now : Timestamp) :
    List MdMsg × MdAggregator :=
  let (book, g) := g.flushBook me id now
  let (ticker, g) := g.flushTicker me id now
  (book ++ ticker, g)

/-- Instruments from `i` on. -/
def flushFrom (me : MatchingEngine) (now : Timestamp) : Nat → Nat → MdAggregator →
    List MdMsg × MdAggregator
  | 0, _, g => ([], g)
  | n + 1, i, g =>
    let (first, g) := g.flushInstrument me ⟨i⟩ now
    let (rest, g) := flushFrom me now n (i + 1) g
    (first ++ rest, g)

def flush (me : MatchingEngine) (now : Timestamp) : List MdMsg × MdAggregator :=
  flushFrom me now g.count 0 g

end MdAggregator

/-! ## The feed -/

/-- The engine, its aggregator and what has been published. -/
structure MdFeed where
  engine : MatchingEngine
  md : MdAggregator
  sent : List MdMsg := []

inductive FeedOp where
  | engine (op : EngineOp) (now : Timestamp)
  | flush (now : Timestamp)
  | emitSnapshot (id : InstrumentId) (now : Timestamp)
  deriving DecidableEq, Repr

namespace MdFeed

variable (f : MdFeed)

/-- The owner forwards what the engine tells. -/
def step : FeedOp → MdFeed
  | .engine op now =>
    let e := f.engine.play op now
    { f with engine := e, md := (e.told.drop f.engine.told.length).foldl MdAggregator.hear f.md }
  | .flush now =>
    let (msgs, md) := f.md.flush f.engine now
    { f with md := md, sent := f.sent ++ msgs }
  | .emitSnapshot id now =>
    let (msgs, md) := f.md.emitSnapshot f.engine id now
    { f with md := md, sent := f.sent ++ msgs }

def run (ops : List FeedOp) : MdFeed := ops.foldl step f

end MdFeed

/-! ## A client -/

/-- A client's book of one instrument, with the update id it stands at. -/
structure MdClient where
  book : Side → Price → Qty
  updateId : Nat

/-- Absolute quantities are set. -/
def setQtys (q : Price → Qty) (ls : List Level) : Price → Qty :=
  ls.foldl (fun q l => update q l.price l.qty) q

namespace MdClient

/-- The client of instrument `i` starts from its first snapshot. -/
def hear (i : Nat) (c : Option MdClient) : MdMsg → Option MdClient
  | .bookSnapshot id bids asks u _ =>
    if id.value = i then
      some
        { book := fun s => setQtys (fun _ => 0) (match s with | .buy => bids | .sell => asks)
          updateId := u }
    else c
  | .bookDelta id bids asks _ last _ =>
    if id.value = i then
      c.map fun c =>
        { book := fun s => setQtys (c.book s) (match s with | .buy => bids | .sell => asks)
          updateId := last }
    else c
  | .bookTicker _ _ _ _ _ => c

def of (i : Nat) (msgs : List MdMsg) : Option MdClient := msgs.foldl (hear i) none

end MdClient

end FastMM.Sim
