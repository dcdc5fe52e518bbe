/-
  Sim/FeedFollowed.lean --- a client of the aggregated feed has the engine's book.

  Between flushes the aggregator holds the net of the changes since the last message.  `Pending`
  relates the two; a flush hands them to the client, as a delta or as a whole book.
-/
import FastMM.Book.L2Book
import FastMM.Sim.MdAggregator
set_option autoImplicit false

namespace FastMM.Sim

open Foundation Function List MdAggregator

/-! ## Absolute quantities -/

section Quantities

variable {q r : Price → Qty} {A B ls : List Level} {l : Level} {p : Price}

theorem setQtys_append (q : Price → Qty) (A B : List Level) :
    setQtys q (A ++ B) = setQtys (setQtys q A) B := foldl_append

/-- What is set at a price depends on what stood at it. -/
theorem setQtys_congr (h : q p = r p) : setQtys q ls p = setQtys r ls p := by
  induction ls generalizing q r with
  | nil => exact h
  | cons l ls ih =>
    refine ih ?_
    show update q l.price l.qty p = update r l.price l.qty p
    by_cases hp : p = l.price
    · rw [hp, update_self, update_self]
    · rw [update_of_ne hp, update_of_ne hp, h]

theorem setQtys_absent (h : ∀ l ∈ ls, l.price ≠ p) : setQtys q ls p = q p := by
  induction ls generalizing q with
  | nil => rfl
  | cons l ls ih =>
    refine (ih fun l hl => h l (mem_cons_of_mem _ hl)).trans ?_
    exact update_of_ne (h l mem_cons_self).symm _ _

/-- The last level of a price is what it is set to. -/
theorem setQtys_split (hB : ∀ b ∈ B, b.price ≠ l.price) :
    setQtys q (A ++ l :: B) p = if p = l.price then l.qty else setQtys q (A ++ B) p := by
  rw [setQtys_append, setQtys_append]
  show setQtys (update (setQtys q A) l.price l.qty) B p = _
  split_ifs with hp
  · rw [hp, setQtys_absent hB, update_self]
  · exact setQtys_congr (update_of_ne hp _ _)

end Quantities

/-- A snapshot of a whole side is its levels. -/
theorem setQtys_levels {ls : List PriceLevel} (h : (ls.map PriceLevel.price).Nodup) (p : Price) :
    setQtys (fun _ => 0) (ls.reverse.map fun l => { price := l.price, qty := l.qty }) p =
      qtyAt ls p := by
  induction ls with
  | nil => rfl
  | cons l ls ih =>
    rw [map_cons, nodup_cons] at h
    rw [reverse_cons, map_append, map_singleton, setQtys_split (B := [])
      fun b hb => absurd hb not_mem_nil, append_nil, ih h.2]
    exact (qtyAt_split (A := []) (B := ls) (fun a ha => absurd ha not_mem_nil) p).symm

/-! ## Changes that wait -/

/-- Since a client stood at `q` and `base`, the changes `cs` have come. -/
structure Pending (q : Side → Price → Qty) (base : Nat) (cs : List BookChange) (st : InstState) :
    Prop where
  first : st.firstUid = if cs = [] then 0 else base + 1
  last : st.lastUid = if cs = [] then 0 else base + cs.length
  dirty : st.dirty = true ↔ cs ≠ []
  index : ∀ s p j, (st.side s).index p = some j ↔
    ∃ l, (st.side s).changes.data[j]? = some l ∧ l.price = p
  net : st.overflow = false → ∀ s p, setQtys (q s) (st.side s).changes.data p = replay q cs s p

variable {q : Side → Price → Qty} {base : Nat} {cs : List BookChange} {st : InstState}
  {c : BookChange}

theorem pending_clear (q : Side → Price → Qty) (base : Nat) (st : InstState) :
    Pending q base [] st.clear := by
  refine ⟨rfl, rfl, ⟨fun h => absurd h (by simp [InstState.clear]), fun h => absurd rfl h⟩,
    fun s p j => ⟨fun h => absurd h (by simp [InstState.clear]), ?_⟩, fun _ s p => rfl⟩
  rintro ⟨l, hl, -⟩
  exact absurd hl (by simp [InstState.clear, StaticVector.nil])

theorem replay_snoc (q : Side → Price → Qty) (cs : List BookChange) (c : BookChange) (s : Side)
    (p : Price) : replay q (cs ++ [c]) s p =
      if s = c.side ∧ p = c.price then c.qty else replay q cs s p := by
  rw [replay_append]
  rfl

/-- A side of the aggregator rewritten. -/
theorem Pending.side {q : Side → Price → Qty} {cs : List BookChange} {st : InstState}
    (h : Pending q base cs st) (hnet : ∀ s p,
      setQtys (q s) (st.side s).changes.data p = replay q cs s p) {a : SideAgg}
    (hindex : ∀ p j, a.index p = some j ↔ ∃ l, a.changes.data[j]? = some l ∧ l.price = p)
    (hchanges : ∀ p, setQtys (q c.side) a.changes.data p =
      if p = c.price then c.qty else setQtys (q c.side) (st.side c.side).changes.data p)
    {st' : InstState} (hfirst : st'.firstUid = base + 1)
    (hlast : st'.lastUid = base + (cs ++ [c]).length) (hdirty : st'.dirty = true)
    (hside : st'.side = update st.side c.side a) : Pending q base (cs ++ [c]) st' := by
  have hne : cs ++ [c] ≠ [] := by simp
  refine ⟨by rw [if_neg hne]; exact hfirst, by rw [if_neg hne]; exact hlast,
    ⟨fun _ => hne, fun _ => hdirty⟩, fun s p j => ?_, fun _ s p => ?_⟩
  · rw [hside]
    by_cases hs : s = c.side
    · rw [hs, update_self]
      exact hindex p j
    · rw [update_of_ne hs]
      exact h.index s p j
  · rw [hside, replay_snoc]
    by_cases hs : s = c.side
    · subst hs
      rw [update_self, hchanges, hnet]
      by_cases hp : p = c.price
      · rw [if_pos hp, if_pos ⟨rfl, hp⟩]
      · rw [if_neg hp, if_neg fun h => hp h.2]
    · rw [update_of_ne hs, hnet, if_neg fun h => hs h.1]

/-- One more change. -/
theorem Pending.hear (h : Pending q base cs st) (hid : c.updateId = base + cs.length + 1) :
    Pending q base (cs ++ [c]) (st.onBookChange c.side c.price c.qty c.updateId) := by
  have hne : cs ++ [c] ≠ [] := by simp
  have hfirst : (if st.firstUid = 0 then c.updateId else st.firstUid) = base + 1 := by
    rw [h.first]
    by_cases hcs : cs = []
    · rw [if_pos hcs, if_pos rfl, hid, hcs]
      rfl
    · rw [if_neg hcs, if_neg (Nat.succ_ne_zero base)]
  have hlast : c.updateId = base + (cs ++ [c]).length := by
    rw [hid, length_append, length_singleton, Nat.add_assoc]
  unfold InstState.onBookChange
  dsimp only
  rw [hfirst]
  by_cases hover : st.overflow = true
  · rw [if_pos hover]
    exact ⟨(if_neg hne).symm, by rw [if_neg hne]; exact hlast, ⟨fun _ => hne, fun _ => rfl⟩,
      h.index, fun hno => absurd hover (by rw [show st.overflow = false from hno]; simp)⟩
  rw [if_neg hover]
  have hnet := h.net (by simpa using hover)
  cases hix : (st.side c.side).index c.price with
  | some j =>
    dsimp only
    obtain ⟨l, hl, hprice⟩ := (h.index c.side c.price j).mp hix
    obtain ⟨hj, -⟩ := List.getElem?_eq_some_iff.mp hl
    have hlevel : (st.side c.side).changes.get j = l := by
      unfold StaticVector.get
      rw [getD_eq_getElem?_getD, hl]
      rfl
    have hsplit := eq_take_append_drop hl
    rw [hlevel]
    refine h.side hnet (fun p k => ?_) (fun p => ?_) rfl hlast rfl rfl
    · rw [h.index]
      show _ ↔ ∃ l', ((st.side c.side).changes.data.set j { l with qty := c.qty })[k]? = some l' ∧
        l'.price = p
      rw [getElem?_set]
      by_cases hk : j = k
      · subst hk
        rw [if_pos rfl, if_pos hj, hl]
        simp
      · rw [if_neg hk]
    · have hset : (st.side c.side).changes.data.set j { l with qty := c.qty } =
          (st.side c.side).changes.data.take j ++ { l with qty := c.qty } ::
            (st.side c.side).changes.data.drop (j + 1) :=
        set_eq_take_append_cons_drop.trans (if_pos hj)
      have hafter : ∀ b ∈ (st.side c.side).changes.data.drop (j + 1), b.price ≠ l.price := by
        intro b hb hpb
        obtain ⟨k, hk⟩ := mem_iff_getElem?.mp hb
        rw [getElem?_drop] at hk
        have hix' := (h.index c.side c.price (j + 1 + k)).mpr ⟨b, hk, hpb.trans hprice⟩
        have hjk := Option.some.inj (hix.symm.trans hix')
        omega
      have hwritten : setQtys (q c.side) ((st.side c.side).changes.data.take j ++
          { l with qty := c.qty } :: (st.side c.side).changes.data.drop (j + 1)) p =
          if p = l.price then c.qty else setQtys (q c.side)
            ((st.side c.side).changes.data.take j ++
              (st.side c.side).changes.data.drop (j + 1)) p :=
        setQtys_split (l := { l with qty := c.qty }) hafter
      show setQtys _ ((st.side c.side).changes.data.set j { l with qty := c.qty }) p = _
      rw [hset, hwritten, hprice]
      by_cases hp : p = c.price
      · rw [if_pos hp, if_pos hp]
      · rw [if_neg hp, if_neg hp]
        conv_rhs => rw [hsplit]
        rw [setQtys_split hafter, hprice, if_neg hp]
  | none =>
    dsimp only
    split_ifs with hroom
    · exact ⟨(if_neg hne).symm, by rw [if_neg hne]; exact hlast, ⟨fun _ => hne, fun _ => rfl⟩,
        h.index, nofun⟩
    have hpush : ((st.side c.side).changes.pushBack { price := c.price, qty := c.qty }).data =
        (st.side c.side).changes.data ++ [{ price := c.price, qty := c.qty }] := by
      have hlt : (st.side c.side).changes.size < kMaxAggLevels :=
        lt_of_le_of_ne (st.side c.side).changes.length_le (not_or.mp hroom).1
      unfold StaticVector.pushBack
      rw [dif_pos hlt]
    have hnew : ∀ (k : Nat) (l : Level), (st.side c.side).changes.data[k]? = some l →
        l.price ≠ c.price := by
      intro k l hl hp
      have hsome := (h.index c.side c.price k).mpr ⟨l, hl, hp⟩
      simp [hix] at hsome
    refine h.side hnet (fun p k => ?_) (fun p => ?_) rfl hlast rfl rfl
    · show update (st.side c.side).index c.price
        (some (st.side c.side).changes.data.length) p = some k ↔ _
      rw [hpush, getElem?_append]
      by_cases hk : k < (st.side c.side).changes.data.length
      · rw [if_pos hk]
        by_cases hp : p = c.price
        · rw [hp, update_self]
          constructor
          · intro he
            have hke := Option.some.inj he
            omega
          · rintro ⟨l, hl, hlp⟩
            exact absurd hlp (hnew k l hl)
        · rw [update_of_ne hp]
          exact h.index c.side p k
      · rw [if_neg hk]
        by_cases hp : p = c.price
        · rw [hp, update_self]
          constructor
          · intro he
            have hke := Option.some.inj he
            refine ⟨{ price := c.price, qty := c.qty }, ?_, rfl⟩
            rw [← hke, Nat.sub_self]
            rfl
          · rintro ⟨l, hl, -⟩
            have hlt := (List.getElem?_eq_some_iff.mp hl).1
            rw [length_singleton] at hlt
            exact congrArg some (by omega)
        · rw [update_of_ne hp, h.index]
          constructor
          · rintro ⟨l, hl, -⟩
            exact absurd (List.getElem?_eq_some_iff.mp hl).1 hk
          rintro ⟨l, hl, hlp⟩
          have hl' := mem_of_getElem? hl
          rw [mem_singleton] at hl'
          subst hl'
          exact absurd hlp.symm hp
    · rw [hpush, setQtys_split (B := []) fun b hb => absurd hb not_mem_nil, append_nil]

/-! ## A client that keeps up -/

/-- Each delta of instrument `i` goes on from where a client then stands. -/
def Continues (i : Nat) (msgs : List MdMsg) : Prop :=
  ∀ pre post id bids asks first last ts,
    msgs = pre ++ .bookDelta id bids asks first last ts :: post → id.value = i →
      ∃ c, MdClient.of i pre = some c ∧ first = c.updateId + 1 ∧ first ≤ last

/-- A message that is not about the book of `i`. -/
def MdMsg.Aside (i : Nat) : MdMsg → Prop
  | .bookSnapshot id _ _ _ _ => id.value ≠ i
  | .bookDelta id _ _ _ _ _ => id.value ≠ i
  | .bookTicker _ _ _ _ _ => True

section Clients

variable {i : Nat} {msgs new : List MdMsg} {m : MdMsg}

theorem MdClient.of_append (i : Nat) (msgs new : List MdMsg) :
    MdClient.of i (msgs ++ new) = new.foldl (MdClient.hear i) (MdClient.of i msgs) :=
  foldl_append

theorem MdMsg.Aside.hear (h : m.Aside i) (c : Option MdClient) : MdClient.hear i c m = c := by
  cases m with
  | bookSnapshot id bids asks u ts => exact if_neg h
  | bookDelta id bids asks first last ts => exact if_neg h
  | bookTicker id bid ask seq ts => rfl

theorem Continues.snoc (h : Continues i msgs)
    (hm : ∀ id bids asks first last ts, m = .bookDelta id bids asks first last ts → id.value = i →
      ∃ c, MdClient.of i msgs = some c ∧ first = c.updateId + 1 ∧ first ≤ last) :
    Continues i (msgs ++ [m]) := by
  intro pre post id bids asks first last ts he hi
  rcases eq_nil_or_concat' post with rfl | ⟨post, b, rfl⟩
  · obtain ⟨rfl, hlast⟩ := append_inj' he rfl
    exact hm _ _ _ _ _ _ (singleton_inj.mp hlast) hi
  have he' : msgs ++ [m] = (pre ++ .bookDelta id bids asks first last ts :: post) ++ [b] := by
    rw [he, append_assoc, cons_append]
  obtain ⟨hmsgs, -⟩ := append_inj' he' rfl
  exact h pre post id bids asks first last ts hmsgs hi

end Clients

/-- A client of instrument `i` has the book, but for the changes that wait. -/
structure Awaits (i : Nat) (f : MdFeed) (c : MdClient) (cs : List BookChange) : Prop where
  client : MdClient.of i f.sent = some c
  pending : Pending c.book c.updateId cs (f.md.st i)
  qty : ∀ s p, qtyAt (f.engine.levelsOf i s) p = replay c.book cs s p
  updateId : (f.engine.books i).updateId = c.updateId + cs.length

/-- What holds of instrument `i` between any two steps. -/
structure Follows (i : Nat) (f : MdFeed) : Prop where
  continues : Continues i f.sent
  awaits : (f.md.st i).snapshotSent = true → ∃ c cs, Awaits i f c cs

/-- What a flush brings about. -/
structure Caught (i : Nat) (f : MdFeed) : Prop where
  continues : Continues i f.sent
  awaits : ∃ c, Awaits i f c []

theorem Caught.follows {i : Nat} {f : MdFeed} (h : Caught i f) : Follows i f :=
  ⟨h.continues, fun _ => h.awaits.imp fun _ hc => ⟨[], hc⟩⟩

/-! ## Steps of the engine -/

section Engine

variable {i : Nat} {g : MdAggregator} {calls : List SinkCall} {call : SinkCall}

theorem MdAggregator.hear_count (g : MdAggregator) (call : SinkCall) :
    (g.hear call).count = g.count ∧ (g.hear call).cfg = g.cfg := by
  cases call with
  | onBookChange id side px qty u =>
    show (g.onBookChange id side px qty u).count = _ ∧ (g.onBookChange id side px qty u).cfg = _
    unfold onBookChange
    split <;> exact ⟨rfl, rfl⟩
  | _ => exact ⟨rfl, rfl⟩

theorem InstState.onBookChange_snapshotSent (st : InstState) (side : Side) (px : Price) (qty : Qty)
    (u : Nat) : (st.onBookChange side px qty u).snapshotSent = st.snapshotSent := by
  unfold InstState.onBookChange
  dsimp only
  split
  · rfl
  · split
    · rfl
    · split <;> rfl

/-- A call is heard by the instrument it is about. -/
theorem MdAggregator.hear_st (hi : i < g.count) (call : SinkCall) :
    (g.hear call).st i = match changeOf i call with
      | some c => (g.st i).onBookChange c.side c.price c.qty c.updateId
      | none => g.st i := by
  cases call with
  | onBookChange id side px qty u =>
    show (g.onBookChange id side px qty u).st i = _
    unfold onBookChange changeOf
    dsimp only
    by_cases hid : id.value = i
    · subst hid
      rw [if_neg (not_le.mpr hi), if_pos rfl]
      exact update_self ..
    · rw [if_neg hid]
      split
      · rfl
      · exact update_of_ne (Ne.symm hid) _ _
  | _ => rfl

theorem MdAggregator.foldl_count (g : MdAggregator) (calls : List SinkCall) :
    (calls.foldl hear g).count = g.count ∧ (calls.foldl hear g).cfg = g.cfg := by
  induction calls generalizing g with
  | nil => exact ⟨rfl, rfl⟩
  | cons call calls ih =>
    obtain ⟨hcount, hcfg⟩ := ih (g.hear call)
    obtain ⟨hcount', hcfg'⟩ := g.hear_count call
    exact ⟨hcount.trans hcount', hcfg.trans hcfg'⟩

theorem MdAggregator.foldl_snapshotSent (hi : i < g.count) (calls : List SinkCall) :
    ((calls.foldl hear g).st i).snapshotSent = (g.st i).snapshotSent := by
  induction calls generalizing g with
  | nil => rfl
  | cons call calls ih =>
    rw [foldl_cons, ih (by rw [(g.hear_count call).1]; exact hi), hear_st hi]
    split
    · exact InstState.onBookChange_snapshotSent ..
    · rfl

/-- The calls of a step are added to the changes that wait. -/
theorem Pending.foldl {q : Side → Price → Qty} {base : Nat} {cs : List BookChange}
    (h : Pending q base cs (g.st i)) (hi : i < g.count)
    (hids : (changes i calls).map BookChange.updateId =
      List.range' (base + cs.length + 1) (changes i calls).length) :
    Pending q base (cs ++ changes i calls) ((calls.foldl MdAggregator.hear g).st i) := by
  induction calls generalizing g cs with
  | nil =>
    rw [show changes i [] = [] from rfl, append_nil]
    exact h
  | cons call calls ih =>
    have hi' : i < (g.hear call).count := by rw [(g.hear_count call).1]; exact hi
    have hst := hear_st hi call
    rw [foldl_cons]
    cases hc : changeOf i call with
    | none =>
      have hcs : changes i (call :: calls) = changes i calls := filterMap_cons_none hc
      rw [hcs] at hids ⊢
      rw [hc] at hst
      exact ih (by rw [hst]; exact h) hi' hids
    | some c =>
      have hcs : changes i (call :: calls) = c :: changes i calls := filterMap_cons_some hc
      rw [hcs, map_cons, length_cons, range'_succ, List.cons.injEq] at hids
      rw [hc] at hst
      rw [hcs, ← singleton_append, ← append_assoc]
      refine ih (by rw [hst]; exact h.hear hids.1) hi' ?_
      rw [length_append, length_singleton, ← Nat.add_assoc]
      exact hids.2

/-- An operation of the engine. -/
theorem Follows.engine {f : MdFeed} (h : Follows i f) (hi : i < f.md.count) {e : MatchingEngine}
    (htells : Tells f.engine calls e) :
    Follows i { f with engine := e, md := calls.foldl MdAggregator.hear f.md } := by
  refine ⟨h.continues, fun hsent => ?_⟩
  obtain ⟨c, cs, hc⟩ := h.awaits ((foldl_snapshotSent hi calls).symm.trans hsent)
  refine ⟨c, cs ++ changes i calls, hc.client, hc.pending.foldl hi ?_, fun s p => ?_, ?_⟩
  · rw [← hc.updateId]
    exact htells.ids i
  · have hqty : (fun s p => qtyAt (f.engine.levelsOf i s) p) = replay c.book cs :=
      funext fun s => funext fun p => hc.qty s p
    rw [htells.qty, hqty, replay_append]
  · rw [htells.updateId, hc.updateId, length_append, Nat.add_assoc]

end Engine

/-! ## What is published -/

/-- What a call of the aggregator publishes, and the aggregator after it. -/
def MdFeed.publish (f : MdFeed) (r : List MdMsg × MdAggregator) : MdFeed :=
  { f with md := r.2, sent := f.sent ++ r.1 }

/-- No side has more levels than a snapshot. -/
def MdFeed.Shallow (f : MdFeed) (i : Nat) : Prop :=
  ∀ s, (f.engine.levelsOf i s).length ≤ f.md.cfg.snapshotDepth

instance (f : MdFeed) (i : Nat) : Decidable (f.Shallow i) :=
  decidable_of_iff ((f.engine.levelsOf i .buy).length ≤ f.md.cfg.snapshotDepth ∧
    (f.engine.levelsOf i .sell).length ≤ f.md.cfg.snapshotDepth)
    ⟨fun h s => match s with
      | .buy => h.1
      | .sell => h.2, fun h => ⟨h .buy, h .sell⟩⟩

/-- A flush of the instrument is a snapshot. -/
def InstState.Resyncs (st : InstState) : Prop := st.snapshotSent = false ∨ st.overflow = true

instance (st : InstState) : Decidable st.Resyncs := inferInstanceAs (Decidable (_ ∨ _))

section Flush

variable {i : Nat} {f : MdFeed} {c : MdClient} {cs : List BookChange}
  {r : List MdMsg × MdAggregator} {now : Timestamp}

/-- Nothing of instrument `i` but its last ticker changes. -/
structure Passes (i : Nat) (f : MdFeed) (r : List MdMsg × MdAggregator) : Prop where
  aside : ∀ m ∈ r.1, m.Aside i
  st : r.2.st i = { f.md.st i with lastBid := (r.2.st i).lastBid, lastAsk := (r.2.st i).lastAsk }

namespace Passes

section

variable (h : Passes i f r)
include h

theorem client : MdClient.of i (f.publish r).sent = MdClient.of i f.sent := by
  have hall : ∀ (msgs : List MdMsg) (c : Option MdClient), (∀ m ∈ msgs, m.Aside i) →
      msgs.foldl (MdClient.hear i) c = c := by
    intro msgs
    induction msgs with
    | nil => exact fun _ _ => rfl
    | cons m msgs ih =>
      intro c hm
      rw [foldl_cons, (hm m mem_cons_self).hear]
      exact ih c fun m hm' => hm m (mem_cons_of_mem _ hm')
  exact (MdClient.of_append i f.sent r.1).trans (hall _ _ h.aside)

theorem continues (hc : Continues i f.sent) : Continues i (f.publish r).sent := by
  have hall : ∀ (msgs sent : List MdMsg), Continues i sent → (∀ m ∈ msgs, m.Aside i) →
      Continues i (sent ++ msgs) := by
    intro msgs
    induction msgs with
    | nil =>
      intro sent hs _
      rw [append_nil]
      exact hs
    | cons m msgs ih =>
      intro sent hs hm
      rw [← singleton_append, ← append_assoc]
      refine ih _ (hs.snoc ?_) fun m hm' => hm m (mem_cons_of_mem _ hm')
      rintro id bids asks first last ts rfl hid
      exact absurd hid (hm _ mem_cons_self)
  exact hall _ _ hc h.aside

theorem awaits (ha : Awaits i f c cs) : Awaits i (f.publish r) c cs := by
  refine ⟨h.client.trans ha.client, ?_, ha.qty, ha.updateId⟩
  show Pending c.book c.updateId cs (r.2.st i)
  rw [h.st]
  exact ⟨ha.pending.first, ha.pending.last, ha.pending.dirty, ha.pending.index, ha.pending.net⟩

theorem follows (hf : Follows i f) : Follows i (f.publish r) := by
  refine ⟨h.continues hf.continues, fun hsent => ?_⟩
  have hsent' : (r.2.st i).snapshotSent = true := hsent
  rw [h.st] at hsent'
  obtain ⟨c, cs, hc⟩ := hf.awaits hsent'
  exact ⟨c, cs, h.awaits hc⟩

theorem caught (hf : Caught i f) : Caught i (f.publish r) :=
  ⟨h.continues hf.continues, hf.awaits.imp fun _ hc => h.awaits hc⟩

end

/-- Nothing is published. -/
theorem silent (i : Nat) (f : MdFeed) : Passes i f ([], f.md) :=
  ⟨fun _ hm => absurd hm not_mem_nil, rfl⟩

end Passes

variable {id : InstrumentId}

/-- A ticker says nothing of the levels. -/
theorem passes_flushTicker (i : Nat) (f : MdFeed) (id : InstrumentId) (now : Timestamp) :
    Passes i f (f.md.flushTicker f.engine id now) := by
  unfold flushTicker
  dsimp only
  split
  · refine ⟨fun m hm => ?_, ?_⟩
    · rw [mem_singleton] at hm
      subst hm
      exact trivial
    · by_cases hi : i = id.value
      · subst hi
        rw [setState_self]
      · rw [setState_of_ne _ hi]
  · exact Passes.silent i f

theorem passes_emitSnapshot (hid : id.value ≠ i) :
    Passes i f (f.md.emitSnapshot f.engine id now) := by
  unfold emitSnapshot
  split
  · exact Passes.silent i f
  refine ⟨fun m hm => ?_, ?_⟩
  · rw [mem_singleton] at hm
    subst hm
    exact hid
  · rw [setState_of_ne _ (Ne.symm hid)]

theorem passes_flushBook (hid : id.value ≠ i) : Passes i f (f.md.flushBook f.engine id now) := by
  unfold flushBook
  dsimp only
  split
  · exact passes_emitSnapshot hid
  split
  · refine ⟨fun m hm => ?_, ?_⟩
    · rw [mem_singleton] at hm
      subst hm
      exact hid
    · rw [setState_of_ne _ (Ne.symm hid)]
  · exact Passes.silent i f

/-- A snapshot gives a client the book. -/
theorem Follows.emitSnapshot (h : Follows i f) (hi : i < f.md.count) (hshallow : f.Shallow i)
    (hnodup : ∀ s, ((f.engine.levelsOf i s).map PriceLevel.price).Nodup) (now : Timestamp) :
    Caught i (f.publish (f.md.emitSnapshot f.engine ⟨i⟩ now)) := by
  have hsnap : ∀ s p, setQtys (fun _ => 0)
      ((f.engine.book ⟨i⟩).snapshot s f.md.cfg.snapshotDepth) p =
        qtyAt (f.engine.levelsOf i s) p := by
    intro s p
    unfold SimBook.snapshot
    rw [take_of_length_le (by rw [length_reverse]; exact hshallow s)]
    exact setQtys_levels (hnodup s) p
  unfold MdAggregator.emitSnapshot
  rw [if_neg (not_le.mpr hi)]
  refine ⟨h.continues.snoc ?_, ?_⟩
  · exact fun id bids asks first last ts he _ => nomatch he
  refine ⟨_, (MdClient.of_append ..).trans (if_pos rfl), ?_, fun s p => ?_, rfl⟩
  · show Pending _ _ [] ((f.md.setState i _).st i)
    rw [setState_self]
    exact pending_clear _ _ { f.md.st i with snapshotSent := true }
  · cases s with
    | buy => exact (hsnap .buy p).symm
    | sell => exact (hsnap .sell p).symm

/-- A flush gives a client what it lacks. -/
theorem Follows.flushBook (h : Follows i f) (hi : i < f.md.count)
    (hshallow : (f.md.st i).Resyncs → f.Shallow i)
    (hnodup : ∀ s, ((f.engine.levelsOf i s).map PriceLevel.price).Nodup) (now : Timestamp) :
    Caught i (f.publish (f.md.flushBook f.engine ⟨i⟩ now)) := by
  unfold MdAggregator.flushBook
  by_cases hsync : (f.md.st i).Resyncs
  · rw [if_pos (by exact hsync)]
    exact h.emitSnapshot hi (hshallow hsync) hnodup now
  rw [if_neg (by exact hsync)]
  have hsent : (f.md.st i).snapshotSent = true := by simpa using (not_or.mp hsync).1
  have hover : (f.md.st i).overflow = false := by simpa using (not_or.mp hsync).2
  obtain ⟨c, cs, hc⟩ := h.awaits hsent
  by_cases hdirty : (f.md.st i).dirty = true
  · have hne := hc.pending.dirty.mp hdirty
    have hlast : (f.md.st i).lastUid = c.updateId + cs.length := by
      rw [hc.pending.last, if_neg hne]
    rw [if_pos hdirty]
    refine ⟨h.continues.snoc ?_, ?_⟩
    · rintro id bids asks first last ts he -
      injection he with _ _ _ hf hl _
      refine ⟨c, hc.client, ?_, ?_⟩
      · rw [← hf, hc.pending.first, if_neg hne]
      · rw [← hf, ← hl, hlast, hc.pending.first, if_neg hne]
        exact Nat.add_le_add_left (length_pos_iff.mpr hne) _
    refine ⟨{ book := replay c.book cs, updateId := c.updateId + cs.length },
      (MdClient.of_append ..).trans ?_, ?_, hc.qty, hc.updateId⟩
    · show (if i = i then (MdClient.of i f.sent).map _ else _) = _
      rw [if_pos rfl, hc.client, Option.map_some, hlast]
      refine congrArg some (congrArg₂ MdClient.mk ?_ rfl)
      funext s p
      cases s with
      | buy => exact hc.pending.net hover .buy p
      | sell => exact hc.pending.net hover .sell p
    · show Pending _ _ [] ((f.md.setState i _).st i)
      rw [setState_self]
      exact pending_clear _ _ _
  · rw [if_neg hdirty]
    have hcs : cs = [] := by
      by_contra hne
      exact hdirty (hc.pending.dirty.mpr hne)
    rw [hcs] at hc
    exact (Passes.silent i f).caught ⟨h.continues, c, hc⟩

/-! ## A flush of every instrument -/

/-- A call of the aggregator leaves what it was set up with. -/
structure SetUp (g : MdAggregator) (r : List MdMsg × MdAggregator) : Prop where
  count : r.2.count = g.count
  cfg : r.2.cfg = g.cfg

theorem setUp_emitSnapshot (g : MdAggregator) (e : MatchingEngine) (id : InstrumentId)
    (now : Timestamp) : SetUp g (g.emitSnapshot e id now) := by
  unfold emitSnapshot
  split <;> exact ⟨rfl, rfl⟩

theorem setUp_flushInstrument (g : MdAggregator) (e : MatchingEngine) (id : InstrumentId)
    (now : Timestamp) : SetUp g (g.flushInstrument e id now) := by
  have hbook : SetUp g (g.flushBook e id now) := by
    unfold flushBook
    dsimp only
    split
    · exact setUp_emitSnapshot g e id now
    · split <;> exact ⟨rfl, rfl⟩
  have hticker : ∀ g' : MdAggregator, SetUp g' (g'.flushTicker e id now) := by
    intro g'
    unfold flushTicker
    dsimp only
    split <;> exact ⟨rfl, rfl⟩
  exact ⟨(hticker _).count.trans hbook.count, (hticker _).cfg.trans hbook.cfg⟩

theorem setUp_flushFrom (e : MatchingEngine) (now : Timestamp) (n k : Nat) (g : MdAggregator) :
    SetUp g (flushFrom e now n k g) := by
  induction n generalizing k g with
  | zero => exact ⟨rfl, rfl⟩
  | succ n ih =>
    have hfirst := setUp_flushInstrument g e ⟨k⟩ now
    have hrest := ih (k + 1) (g.flushInstrument e ⟨k⟩ now).2
    exact ⟨hrest.count.trans hfirst.count, hrest.cfg.trans hfirst.cfg⟩

theorem MdFeed.publish_append (f : MdFeed) (r r' : List MdMsg × MdAggregator) :
    f.publish (r.1 ++ r'.1, r'.2) = (f.publish r).publish r' := by
  unfold publish
  rw [← append_assoc]

theorem Passes.trans {r' : List MdMsg × MdAggregator} (h : Passes i f r)
    (h' : Passes i (f.publish r) r') : Passes i f (r.1 ++ r'.1, r'.2) := by
  refine ⟨fun m hm => ?_, ?_⟩
  · rcases mem_append.mp hm with hm | hm
    · exact h.aside m hm
    · exact h'.aside m hm
  · have hst : r'.2.st i = { r.2.st i with
      lastBid := (r'.2.st i).lastBid, lastAsk := (r'.2.st i).lastAsk } := h'.st
    rw [h.st] at hst
    exact hst

theorem passes_flushInstrument (hid : id.value ≠ i) :
    Passes i f (f.md.flushInstrument f.engine id now) :=
  (passes_flushBook hid).trans (passes_flushTicker i (f.publish _) id now)

theorem Follows.flushInstrument (h : Follows i f) (hi : i < f.md.count)
    (hshallow : (f.md.st i).Resyncs → f.Shallow i)
    (hnodup : ∀ s, ((f.engine.levelsOf i s).map PriceLevel.price).Nodup) (now : Timestamp) :
    Caught i (f.publish (f.md.flushInstrument f.engine ⟨i⟩ now)) := by
  have hbook := h.flushBook hi hshallow hnodup now
  have hticker := (passes_flushTicker i (f.publish (f.md.flushBook f.engine ⟨i⟩ now))
    ⟨i⟩ now).caught hbook
  rw [← MdFeed.publish_append] at hticker
  exact hticker

theorem flushFrom_succ (e : MatchingEngine) (now : Timestamp) (n k : Nat) (g : MdAggregator) :
    flushFrom e now (n + 1) k g =
      ((g.flushInstrument e ⟨k⟩ now).1 ++
          (flushFrom e now n (k + 1) (g.flushInstrument e ⟨k⟩ now).2).1,
        (flushFrom e now n (k + 1) (g.flushInstrument e ⟨k⟩ now).2).2) := rfl

theorem passes_flushFrom {n k : Nat} (hi : i < k ∨ k + n ≤ i) :
    Passes i f (flushFrom f.engine now n k f.md) := by
  induction n generalizing k f with
  | zero => exact Passes.silent i f
  | succ n ih =>
    have hfirst : Passes i f (f.md.flushInstrument f.engine ⟨k⟩ now) :=
      passes_flushInstrument (by show k ≠ i; omega)
    exact hfirst.trans (ih (f := f.publish _) (k := k + 1) (by omega))

/-- Of the instruments flushed, each is handed over. -/
theorem Follows.flushFrom {n k : Nat} (h : Follows i f) (hi : i < f.md.count)
    (hshallow : (f.md.st i).Resyncs → f.Shallow i)
    (hnodup : ∀ s, ((f.engine.levelsOf i s).map PriceLevel.price).Nodup) (now : Timestamp)
    (hk : k ≤ i) (hn : i < k + n) :
    Caught i (f.publish (flushFrom f.engine now n k f.md)) := by
  induction n generalizing k f with
  | zero => omega
  | succ n ih =>
    rw [flushFrom_succ, MdFeed.publish_append]
    by_cases hki : k = i
    · subst hki
      have hthis := h.flushInstrument hi hshallow hnodup now
      exact (passes_flushFrom (f := f.publish _) (.inl (Nat.lt_succ_self k))).caught hthis
    have hfirst : Passes i f (f.md.flushInstrument f.engine ⟨k⟩ now) :=
      passes_flushInstrument hki
    have hset := setUp_flushInstrument f.md f.engine ⟨k⟩ now
    have hcount : i < (f.publish (f.md.flushInstrument f.engine ⟨k⟩ now)).md.count := by
      show i < (f.md.flushInstrument f.engine ⟨k⟩ now).2.count
      rw [hset.count]
      exact hi
    refine ih (hfirst.follows h) hcount (fun hsync => ?_) hnodup (by omega) (by omega)
    have hsync' : ((f.md.flushInstrument f.engine ⟨k⟩ now).2.st i).Resyncs := hsync
    rw [hfirst.st] at hsync'
    intro s
    show _ ≤ (f.md.flushInstrument f.engine ⟨k⟩ now).2.cfg.snapshotDepth
    rw [hset.cfg]
    exact hshallow hsync' s

end Flush

/-! ## The engine's levels -/

section Levels

variable {e : MatchingEngine} {L : Ladder}

theorem Stands.nodup_prices (hst : Stands e L) (i : Nat) (s : Side) :
    ((e.levelsOf i s).map PriceLevel.price).Nodup := by
  have hlevels : e.levelsOf i s = (L i s).map (OrderPool.levelOf e.pool) := hst.tiered.levels i s
  have hsorted : (L i s).Pairwise fun g g' => goodness s g.1 < goodness s g'.1 :=
    hst.tiered.queues.sorted i s
  rw [hlevels, map_map, List.Nodup, pairwise_map]
  refine hsorted.imp fun {g g'} hlt he => ?_
  have hprice : g.1 = g'.1 := he
  rw [hprice] at hlt
  exact lt_irrefl _ hlt

theorem Stands.qty_pos (hst : Stands e L) {i : Nat} {s : Side} {l : PriceLevel}
    (hl : l ∈ e.levelsOf i s) : 0 < l.qty := by
  have hlevels : e.levelsOf i s = (L i s).map (OrderPool.levelOf e.pool) := hst.tiered.levels i s
  rw [hlevels] at hl
  obtain ⟨g, hg, rfl⟩ := mem_map.mp hl
  have hpos : ∀ q ∈ g.2.map (OrderPool.leavesAt e.pool), (0 : Int) < q := by
    intro q hq
    obtain ⟨k, hk, rfl⟩ := mem_map.mp hq
    obtain ⟨-, o, ho⟩ := hst.tiered.queues.placed i s g hg k hk
    rw [leavesAt_eq ho.slot]
    exact ho.leaves
  exact sum_pos _ hpos (by simpa using hst.tiered.full i s g hg)

end Levels

/-- A client has the levels of instrument `i`. -/
structure HasBook (i : Nat) (e : MatchingEngine) (c : MdClient) : Prop where
  levels : ∀ s p q, (c.book s p = q ∧ q ≠ 0) ↔ ∃ l ∈ e.levelsOf i s, l.price = p ∧ l.qty = q
  updateId : c.updateId = (e.books i).updateId

/-- A level's quantity stands at its price. -/
theorem qtyAt_mem {ls : List PriceLevel} (hnodup : (ls.map PriceLevel.price).Nodup) {l : PriceLevel}
    (hl : l ∈ ls) : qtyAt ls l.price = l.qty := by
  obtain ⟨A, B, rfl⟩ := append_of_mem hl
  rw [map_append, map_cons, nodup_middle, nodup_cons] at hnodup
  have hA : ∀ a ∈ A, a.price ≠ l.price := fun a ha he =>
    hnodup.1 (mem_append_left _ (he ▸ mem_map_of_mem ha))
  rw [qtyAt_split hA, if_pos rfl]

theorem Awaits.hasBook {i : Nat} {f : MdFeed} {c : MdClient} (h : Awaits i f c []) {L : Ladder}
    (hst : Stands f.engine L) : HasBook i f.engine c := by
  refine ⟨fun s p q => ?_, h.updateId.symm⟩
  have hbook : c.book s p = qtyAt (f.engine.levelsOf i s) p := (h.qty s p).symm
  rw [hbook]
  constructor
  · rintro ⟨rfl, hne⟩
    by_contra hno
    refine hne (qtyAt_absent fun l hl hp => hno ⟨l, hl, hp, ?_⟩)
    rw [← hp, qtyAt_mem (hst.nodup_prices i s) hl]
  · rintro ⟨l, hl, rfl, rfl⟩
    exact ⟨qtyAt_mem (hst.nodup_prices i s) hl, (hst.qty_pos hl).ne'⟩

/-! ## The engine's book -/

/-- What a message makes of the book that the engine has of instrument `i`. -/
def MdMsg.bring (i kMaxDepth : Nat) (b : L2Book kMaxDepth) : MdMsg → L2Book kMaxDepth
  | .bookSnapshot id bids asks u ts =>
    if id.value = i then
      b.applyDelta
        { hdr := { exchTs := ts }, isSnapshot := true, lastUpdateId := u, bids := bids,
          asks := asks }
    else b
  | .bookDelta id bids asks _ last ts =>
    if id.value = i then
      b.applyDelta { hdr := { exchTs := ts }, lastUpdateId := last, bids := bids, asks := asks }
    else b
  | .bookTicker _ _ _ _ _ => b

/-- The engine's book agrees with what a client has heard. -/
theorem bring_ok (i kMaxDepth : Nat) (msgs : List MdMsg) :
    ∃ ref, L2Book.BookOk (msgs.foldl (MdMsg.bring i kMaxDepth) {}) ref ∧
      ∀ c, MdClient.of i msgs = some c → ref = c.book := by
  have hsides : ∀ ref bids asks (ls : Side → List Level), ls .buy = bids → ls .sell = asks →
      L2Book.setRefs (L2Book.setRefs ref .buy bids) .sell asks =
        fun s => setQtys (ref s) (ls s) := by
    rintro ref _ _ ls rfl rfl
    rw [L2Book.setRefs_eq, L2Book.setRefs_eq]
    funext s
    cases s <;> rfl
  induction msgs using List.reverseRecOn with
  | nil => exact ⟨_, L2Book.BookOk.clear {}, nofun⟩
  | append_singleton msgs m ih =>
    obtain ⟨ref, hok, hc⟩ := ih
    simp only [foldl_append, MdClient.of_append, foldl_cons, foldl_nil]
    unfold MdMsg.bring MdClient.hear
    cases m with
    | bookTicker id bid ask seq ts => exact ⟨ref, hok, hc⟩
    | bookSnapshot id bids asks u ts =>
      dsimp only
      split_ifs
      · refine ⟨_, hok.applyDelta _, fun c h => ?_⟩
        obtain rfl := Option.some.inj h
        exact hsides _ bids asks _ rfl rfl
      · exact ⟨ref, hok, hc⟩
    | bookDelta id bids asks first last ts =>
      dsimp only
      split_ifs
      · refine ⟨_, hok.applyDelta _, fun c h => ?_⟩
        obtain ⟨d, hd, rfl⟩ := Option.map_eq_some_iff.mp h
        rw [hc d hd]
        exact hsides _ bids asks _ rfl rfl
      · exact ⟨ref, hok, hc⟩

/-! ## Runs -/

namespace MdFeed

/-- The step emits no snapshot of a side with more levels than fit. -/
def ShallowStep (f : MdFeed) : FeedOp → Prop
  | .engine _ _ => True
  | .flush _ => ∀ i < f.md.count, (f.md.st i).Resyncs → f.Shallow i
  | .emitSnapshot id _ => id.value < f.md.count → f.Shallow id.value

instance (f : MdFeed) (op : FeedOp) : Decidable (f.ShallowStep op) := by
  cases op <;> unfold ShallowStep <;> infer_instance

def ShallowRun : MdFeed → List FeedOp → Prop
  | _, [] => True
  | f, op :: ops => f.ShallowStep op ∧ ShallowRun (f.step op) ops

instance decidableShallowRun : ∀ (f : MdFeed) (ops : List FeedOp), Decidable (f.ShallowRun ops)
  | _, [] => isTrue trivial
  | f, op :: ops =>
    haveI := decidableShallowRun (f.step op) ops
    inferInstanceAs (Decidable (f.ShallowStep op ∧ (f.step op).ShallowRun ops))

/-- The engine stands and every instrument is followed. -/
structure Sound (f : MdFeed) : Prop where
  stands : ∃ L, Stands f.engine L
  follows : ∀ i < f.md.count, Follows i f

variable {f : MdFeed}

theorem step_count (f : MdFeed) (op : FeedOp) : (f.step op).md.count = f.md.count := by
  cases op with
  | engine op now => exact (foldl_count f.md _).1
  | flush now => exact (setUp_flushFrom f.engine now f.md.count 0 f.md).count
  | emitSnapshot id now => exact (setUp_emitSnapshot f.md f.engine id now).count

theorem run_count (f : MdFeed) (ops : List FeedOp) : (f.run ops).md.count = f.md.count := by
  induction ops generalizing f with
  | nil => rfl
  | cons op ops ih => exact (ih (f.step op)).trans (f.step_count op)

/-- After a flush nothing waits. -/
theorem Sound.flush (h : f.Sound) (now : Timestamp) (hshallow : f.ShallowStep (.flush now)) :
    ∀ i < f.md.count, Caught i (f.step (.flush now)) := by
  intro i hi
  obtain ⟨L, hst⟩ := h.stands
  exact (h.follows i hi).flushFrom hi (hshallow i hi) (hst.nodup_prices i) now (Nat.zero_le i)
    (by omega)

theorem Sound.step (h : f.Sound) (op : FeedOp) (hshallow : f.ShallowStep op) :
    (f.step op).Sound := by
  obtain ⟨L, hst⟩ := h.stands
  cases op with
  | engine op now =>
    obtain ⟨L', calls, hst', htells, -⟩ := hst.play op now
    refine ⟨⟨L', hst'⟩, fun i hi => ?_⟩
    rw [step_count] at hi
    have hcalls : (f.engine.play op now).told.drop f.engine.told.length = calls := by
      rw [htells.told, drop_left]
    show Follows i { f with engine := _, md := List.foldl _ _ (List.drop _ _) }
    rw [hcalls]
    exact (h.follows i hi).engine hi htells
  | flush now =>
    refine ⟨⟨L, hst⟩, fun i hi => ?_⟩
    rw [step_count] at hi
    exact (h.flush now hshallow i hi).follows
  | emitSnapshot id now =>
    refine ⟨⟨L, hst⟩, fun i hi => ?_⟩
    rw [step_count] at hi
    by_cases hid : id.value = i
    · subst hid
      exact ((h.follows _ hi).emitSnapshot hi (hshallow hi) (hst.nodup_prices _) now).follows
    · exact (passes_emitSnapshot hid).follows (h.follows i hi)

theorem Sound.run (h : f.Sound) {ops : List FeedOp} (hshallow : f.ShallowRun ops) :
    (f.run ops).Sound := by
  induction ops generalizing f with
  | nil => exact h
  | cons op ops ih => exact ih (h.step op hshallow.1) hshallow.2

/-- A feed set up on an engine that may have run. -/
def create (n : Nat) (reducible : List SinkCall → SimOrder → Nat)
    (before : List (EngineOp × Timestamp)) (cfg : MdAggregatorConfig) : MdFeed where
  engine := (MatchingEngine.create n reducible).run before
  md := MdAggregator.create n cfg

section

variable (n : Nat) (reducible : List SinkCall → SimOrder → Nat)
variable (before : List (EngineOp × Timestamp)) (cfg : MdAggregatorConfig)
include n reducible before cfg

theorem sound_create :
    (create n reducible before cfg).Sound := by
  obtain ⟨L, calls, hst, -, -⟩ := (stands_create n reducible).run before
  refine ⟨⟨L, hst⟩, fun i hi => ⟨?_, fun hsent => absurd hsent
    (by simp [create, MdAggregator.create])⟩⟩
  intro pre post id bids asks first last ts he _
  exact absurd he.symm (by simp [create])

/-- The feed reproduces the engine's book. -/
theorem reproduces_book (ops : List FeedOp)
    (hshallow : (create n reducible before cfg).ShallowRun ops) :
    (∀ i < (MdAggregator.create n cfg).count,
      Continues i ((create n reducible before cfg).run ops).sent) ∧
      ∀ now, ((create n reducible before cfg).run ops).ShallowStep (.flush now) →
        ∀ i < (MdAggregator.create n cfg).count,
          ∃ c, MdClient.of i (((create n reducible before cfg).run ops).step (.flush now)).sent =
              some c ∧
            HasBook i (((create n reducible before cfg).run ops).step (.flush now)).engine c := by
  have hsound := (sound_create n reducible before cfg).run hshallow
  have hcount := run_count (create n reducible before cfg) ops
  refine ⟨fun i hi => (hsound.follows i (hcount.symm ▸ hi)).continues, fun now hflush i hi => ?_⟩
  obtain ⟨L, hst⟩ := hsound.stands
  obtain ⟨c, hc⟩ := (hsound.flush now hflush i (hcount.symm ▸ hi)).awaits
  exact ⟨c, hc.client, hc.hasBook (L := L) hst⟩

/-- After a flush the engine's book is sorted and has levels of the exchange's book alone, and all
of them unless one was cut for its depth. -/
theorem engine_has_levels (ops : List FeedOp)
    (hshallow : (create n reducible before cfg).ShallowRun ops) (now : Timestamp)
    (hflush : ((create n reducible before cfg).run ops).ShallowStep (.flush now)) (i : Nat)
    (hi : i < (MdAggregator.create n cfg).count) (kMaxDepth : Nat) (side : Side) :
    let f := ((create n reducible before cfg).run ops).step (.flush now)
    let b := f.sent.foldl (MdMsg.bring i kMaxDepth) {}
    (b.levels side).data.Pairwise (fun worse good => better side good.price worse.price = true) ∧
      (∀ l ∈ (b.levels side).data,
        ∃ e ∈ f.engine.levelsOf i side, e.price = l.price ∧ e.qty = l.qty) ∧
      (b.truncated side = false →
        ∀ e ∈ f.engine.levelsOf i side, ⟨e.price, e.qty⟩ ∈ (b.levels side).data) := by
  intro f b
  have hsound := (sound_create n reducible before cfg).run hshallow
  obtain ⟨L, hst⟩ := hsound.stands
  obtain ⟨c, hc⟩ := (hsound.flush now hflush i ((run_count ..).symm ▸ hi)).awaits
  have hbook := (hc.hasBook (L := L) hst).levels side
  obtain ⟨ref, hok, href⟩ := bring_ok i kMaxDepth f.sent
  obtain rfl := href c hc.client
  obtain ⟨hsorted, -, hcarries, hcomplete⟩ := hok side
  refine ⟨hsorted.imp (better_iff side _ _).mpr, fun l hl => ?_, fun hcut e he => ?_⟩
  · obtain ⟨hne, hqty⟩ := hcarries l hl
    exact (hbook l.price l.qty).mp ⟨hqty, hne⟩
  · obtain ⟨hqty, hne⟩ := (hbook e.price e.qty).mpr ⟨e, he, rfl, rfl⟩
    have hin := hcomplete hcut e.price (hqty.symm ▸ hne)
    rwa [hqty] at hin

end

/-- A snapshot, a level taken out in part, one taken out whole and one brought in. -/
def feedDay : List FeedOp :=
  [.engine (.submit ⟨1, ⟨1⟩, ⟨0⟩, .sell, .limit, .gtc, 100, 5, false⟩) 1, .emitSnapshot ⟨0⟩ 2,
    .engine (.submit ⟨2, ⟨1⟩, ⟨0⟩, .sell, .limit, .gtc, 101, 7, false⟩) 3,
    .engine (.submit ⟨3, ⟨1⟩, ⟨0⟩, .buy, .limit, .gtc, 101, 8, false⟩) 4, .flush 5,
    .engine (.submit ⟨3, ⟨2⟩, ⟨0⟩, .buy, .limit, .gtc, 99, 2, false⟩) 6]

theorem reproduces_book_feedDay :
    ∃ c, MdClient.of 0 (((create 1 (fun _ _ => 0) [] {}).run feedDay).step (.flush 7)).sent =
        some c ∧ c.book .sell 100 = 0 ∧ c.book .sell 101 = 4 ∧ c.book .buy 99 = 2 := by
  obtain ⟨-, hflush⟩ := reproduces_book 1 (fun _ _ => 0) [] {} feedDay (by decide +kernel)
  obtain ⟨c, hc, hbook⟩ := hflush 7 (by decide +kernel) 0 (by decide)
  refine ⟨c, hc, ?_, ((hbook.levels .sell 101 4).mpr ?_).1, ((hbook.levels .buy 99 2).mpr ?_).1⟩
  · by_contra hne
    have hlevel := (hbook.levels .sell 100 _).mp ⟨rfl, hne⟩
    obtain ⟨l, hl, hp, -⟩ := hlevel
    have hgone : ∀ l ∈ (((create 1 (fun _ _ => 0) [] {}).run feedDay).step
        (.flush 7)).engine.levelsOf 0 .sell, l.price ≠ (100 : Int) := by decide +kernel
    exact hgone l hl hp
  · decide +kernel
  · decide +kernel

theorem engine_has_levels_feedDay :
    let f := ((create 1 (fun _ _ => 0) [] {}).run feedDay).step (.flush 7)
    let b := f.sent.foldl (MdMsg.bring 0 4) {}
    ∀ e ∈ f.engine.levelsOf 0 .sell, ⟨e.price, e.qty⟩ ∈ (b.levels .sell).data :=
  (engine_has_levels 1 (fun _ _ => 0) [] {} feedDay (by decide +kernel) 7 (by decide +kernel) 0
    (by decide) 4 .sell).2.2 (by decide +kernel)

end MdFeed

end FastMM.Sim
