/-
  Fix/FramedStream.lean --- the framer finds the same messages however a stream arrives.

  Bytes arrive in chunks; whenever a chunk has arrived, `next` is called until it returns nothing.
-/
import FastMM.Fix.Framed
set_option autoImplicit false

namespace FastMM.Fix

open Foundation List

namespace FixFramer

/-! ## The judge -/

variable {p : Bytes}

theorem startsHere_append (h : startsHere p = false) (q : Bytes) : startsHere (p ++ q) = false := by
  unfold startsHere at h ⊢
  rw [Bool.eq_false_iff, ne_eq, isPrefixOf_iff_prefix] at h ⊢
  intro hpre
  refine h (List.IsPrefix.trans ?_ hpre)
  rw [take_append]
  exact prefix_append _ _

theorem startsHere_long (h : ¬ p.length < kPrefixLen) (q : Bytes) :
    startsHere (p ++ q) = startsHere p := by
  unfold startsHere
  rw [take_append_of_le_length (Nat.le_of_not_lt h)]

theorem prefix_of_startsHere (h : startsHere p = true) (hlong : ¬ p.length < kPrefixLen) :
    kPrefix <+: p := by
  have hpre := isPrefixOf_iff_prefix.mp h
  have hlen : (p.take kPrefixLen).length = kPrefix.length := by
    rw [length_take, Nat.min_eq_left (Nat.le_of_not_lt hlong)]
    rfl
  rw [← hpre.eq_of_length hlen]
  exact take_prefix _ _

/-- What a judge knows of a long enough prefix. -/
theorem judge_known {f : FixFramer} (h : f.judge p ≠ .wait) : startsHere p = false ∨
      (startsHere p = true ∧ ¬ p.length < kPrefixLen ∧ probe p f.maxMessage ≠ .needMore) := by
  unfold judge at h
  split at h
  · exact .inl ‹_›
  rename_i hstarts
  split_ifs at h with hlong
  · exact absurd rfl h
  · refine .inr ⟨Bool.eq_true_of_not_eq_false hstarts, hlong, fun hmore => ?_⟩
    rw [hmore] at h
    exact h rfl

theorem judge_append {f : FixFramer} (h : f.judge p ≠ .wait) (q : Bytes) :
    f.judge (p ++ q) = f.judge p := by
  rcases judge_known h with hnot | ⟨-, hlong, hknown⟩
  · unfold judge
    rw [if_pos hnot, if_pos (startsHere_append hnot q)]
  have hlong' : ¬ (p ++ q).length < kPrefixLen := by
    rw [length_append]
    omega
  unfold judge
  rw [startsHere_long hlong, if_neg hlong, if_neg hlong', probe_append hknown]

theorem judge_take {f : FixFramer} {n : Nat} (h : f.judge p = .take n) :
    Framed f.maxMessage (p.take n) ∧ 0 < n ∧ n ≤ p.length := by
  rcases judge_known (by rw [h]; exact nofun) with hnot | ⟨hstarts, hlong, -⟩
  · unfold judge at h
    rw [if_pos hnot] at h
    exact absurd h nofun
  unfold judge at h
  rw [if_neg (by rw [hstarts]; decide), if_neg hlong] at h
  cases hprobe : probe p f.maxMessage with
  | frame total =>
    rw [hprobe] at h
    obtain rfl := Verdict.take.inj h
    exact probe_framed hprobe (prefix_of_startsHere hstarts hlong)
  | needMore =>
    rw [hprobe] at h
    exact absurd h nofun
  | bad =>
    rw [hprobe] at h
    exact absurd h nofun

theorem judge_steady (f : FixFramer) : Steady f.judge where
  skip a b _ h := (judge_append (by rw [h]; exact nofun) b).trans h
  take a b n h := (judge_append (by rw [h]; exact nofun) b).trans h
  bounds a n h := (judge_take h).2

/-- A message is taken whole. -/
theorem judge_framed {f : FixFramer} {m : Bytes} (h : Framed f.maxMessage m) :
    f.judge m = .take m.length := by
  have hprobe := probe_of_framed h
  obtain ⟨⟨field, ds, body, ck, hm, hpre, -⟩, -⟩ := h
  have hprefix : kPrefix <+: m := hpre.trans (hm ▸ prefix_append _ _)
  have hlong : ¬ m.length < kPrefixLen := Nat.not_lt.mpr hprefix.length_le
  have hstarts : startsHere m = true := by
    obtain ⟨q, rfl⟩ := hprefix
    have hfive : (kPrefix ++ q).take kPrefixLen = kPrefix := take_left' rfl
    unfold startsHere
    rw [hfive]
    rfl
  unfold judge
  rw [if_neg (by rw [hstarts]; decide), if_neg hlong, hprobe]

/-! ## Reading -/

/-- What a call of `next` returned, and the place of the bytes it was given. -/
structure Got where
  off : Nat
  view : FrameView
  deriving DecidableEq, Repr

/-- The place of the message in a result. -/
def Got.place (g : Got) : Nat := g.off + (g.view.consumed - g.view.payload.length)

variable (f : FixFramer)

/-- `next` is called until it returns nothing, and what it consumed is dropped. -/
def drain : Nat → Nat → Bytes → List Got × Nat × Bytes
  | 0, off, p => ([], off, p)
  | n + 1, off, p =>
    let v := f.next p
    if v.consumed = 0 then ([], off, p)
    else
      let (gs, off', rest) := drain n (off + v.consumed) (p.drop v.consumed)
      (⟨off, v⟩ :: gs, off', rest)

/-- The bytes that are not consumed, their place, and what was returned. -/
structure Reader where
  off : Nat := 0
  buffer : Bytes := []
  got : List Got := []
  deriving DecidableEq, Repr

/-- A chunk arrives. -/
def arrive (r : Reader) (chunk : Bytes) : Reader :=
  let p := r.buffer ++ chunk
  let (gs, off, rest) := f.drain p.length r.off p
  { off := off, buffer := rest, got := r.got ++ gs }

def feed (chunks : List Bytes) : Reader := chunks.foldl f.arrive {}

/-- The messages that were returned, each with its place in the stream. -/
def messages (gs : List Got) : List (Nat × Bytes) :=
  gs.filterMap fun g =>
    if g.view.kind = kMessage ∧ g.view.consumed ≠ 0 then some (g.place, g.view.payload) else none

/-- A result of the bytes `p`: garbage, or a message behind garbage. -/
structure Laid (p : Bytes) (v : FrameView) : Prop where
  pos : 0 < v.consumed
  le : v.consumed ≤ p.length
  shape : (v.kind = kGarbage ∧ v.payload = []) ∨
    (v.kind = kMessage ∧ Framed f.maxMessage v.payload ∧ v.payload.length ≤ v.consumed ∧
      v.payload = slice (v.consumed - v.payload.length) v.payload.length p)

/-- Results stand one behind the other in a stream. -/
def Consecutive : Nat → Bytes → List Got → Prop
  | _, _, [] => True
  | off, p, g :: gs =>
    g.off = off ∧ Laid f p g.view ∧ Consecutive (off + g.view.consumed) (p.drop g.view.consumed) gs

/-! ## Results -/

variable {f}

theorem messages_one {g : Got} (h : g.view.kind = kMessage ∧ g.view.consumed ≠ 0) :
    messages [g] = [(g.place, g.view.payload)] := by
  unfold messages
  simp only [filterMap_cons, if_pos h, filterMap_nil]

/-- A call of `next`, by what stands in the buffer. -/
theorem next_cases (p : Bytes) : (f.next p = {} ∧ scan f.judge p = (0, none)) ∨
    (∀ q, Laid f (p ++ q) (f.next p)) ∧ ∀ off q, walk f.judge 0 off (p ++ q) =
      messages [⟨off, f.next p⟩] ++
        walk f.judge 0 (off + (f.next p).consumed) (p.drop (f.next p).consumed ++ q) := by
  have hsteady := f.judge_steady
  have hnext := f.next_eq p
  obtain ⟨k, hk⟩ : ∃ k, k = (scan f.judge p).1 := ⟨_, rfl⟩
  cases htaken : (scan f.judge p).2 with
  | none =>
    have hscan : scan f.judge p = (k, none) := Prod.ext hk.symm htaken
    rw [hscan] at hnext
    dsimp only at hnext
    split_ifs at hnext with hpos
    · rw [hnext]
      have hle : k ≤ p.length := hk ▸ scan_le f.judge p
      refine .inr ⟨fun q => ⟨hpos, ?_, .inl ⟨rfl, rfl⟩⟩, walk_passed hsteady hscan⟩
      rw [length_append]
      exact Nat.le_add_right_of_le hle
    · obtain rfl : k = 0 := by omega
      exact .inl ⟨hnext, hscan⟩
  | some n =>
    have hscan : scan f.judge p = (k, some n) := Prod.ext hk.symm htaken
    obtain ⟨htake, hn, hle⟩ := scan_taken hsteady hscan
    rw [hscan] at hnext
    dsimp only at hnext
    have hlen : (slice k n p).length = n := length_slice hle
    refine .inr ⟨fun q => ?_, fun off q => ?_⟩
    · rw [hnext]
      refine ⟨Nat.lt_add_left k hn, ?_, .inr ⟨rfl, (judge_take htake).1, ?_, ?_⟩⟩
      · rw [length_append]
        exact Nat.le_add_right_of_le hle
      · rw [hlen]
        exact Nat.le_add_left n k
      · rw [hlen, Nat.add_sub_cancel, slice_append_left hle]
    · have hmessage : messages [⟨off, f.next p⟩] = [(off + k, slice k n p)] := by
        rw [hnext, messages_one ⟨rfl, by show k + n ≠ 0; omega⟩]
        unfold Got.place
        rw [hlen, Nat.add_sub_cancel]
      rw [walk_taken hsteady hscan, hmessage, hnext]
      rw [← Nat.add_assoc]
      rfl

theorem messages_append (a b : List Got) : messages (a ++ b) = messages a ++ messages b :=
  filterMap_append

/-- How many bytes results have consumed. -/
def consumed (gs : List Got) : Nat := (gs.map fun g => g.view.consumed).sum

theorem Consecutive.append {gs hs : List Got} {off : Nat} (hg : Consecutive f off p gs)
    (hh : Consecutive f (off + consumed gs) (p.drop (consumed gs)) hs) :
    Consecutive f off p (gs ++ hs) := by
  induction gs generalizing off p with
  | nil => exact hh
  | cons g gs ih =>
    obtain ⟨hoff, hlaid, hrest⟩ := hg
    have hsum : consumed (g :: gs) = g.view.consumed + consumed gs := sum_cons
    rw [hsum, ← Nat.add_assoc, ← drop_drop] at hh
    exact ⟨hoff, hlaid, ih hrest hh⟩

/-- Messages are made of bytes that were consumed. -/
theorem Consecutive.messages_le {gs : List Got} {off : Nat} (h : Consecutive f off p gs) :
    ((messages gs).map Prod.snd).flatten.length ≤ consumed gs := by
  induction gs generalizing off p with
  | nil => exact Nat.le_refl 0
  | cons g gs ih =>
    obtain ⟨-, hlaid, hrest⟩ := h
    have hsum : consumed (g :: gs) = g.view.consumed + consumed gs := sum_cons
    have hlen : g.view.payload.length ≤ g.view.consumed := by
      rcases hlaid.shape with ⟨-, hnil⟩ | ⟨-, -, hle, -⟩
      · rw [hnil]
        exact Nat.zero_le _
      · exact hle
    have hih := ih hrest
    have hsplit : messages (g :: gs) = messages [g] ++ messages gs := messages_append [g] gs
    have hone : ((messages [g]).map Prod.snd).flatten.length ≤ g.view.payload.length := by
      unfold messages
      rw [filterMap_cons]
      split
      · exact Nat.zero_le _
      rename_i m hm
      split at hm
      · rw [← Option.some.inj hm]
        simp
      · exact absurd hm nofun
    rw [hsplit, hsum, map_append, flatten_append, length_append]
    omega

/-- What calling `next` until it returns nothing does. -/
theorem drain_spec (n off : Nat) (p : Bytes) (hn : p.length ≤ n) :
    scan f.judge (f.drain n off p).2.2 = (0, none) ∧
      consumed (f.drain n off p).1 ≤ p.length ∧
      (f.drain n off p).2.1 = off + consumed (f.drain n off p).1 ∧
      (f.drain n off p).2.2 = p.drop (consumed (f.drain n off p).1) ∧
      ∀ q, Consecutive f off (p ++ q) (f.drain n off p).1 ∧
        walk f.judge 0 off (p ++ q) = messages (f.drain n off p).1 ++
          walk f.judge 0 (f.drain n off p).2.1 ((f.drain n off p).2.2 ++ q) := by
  induction n generalizing off p with
  | zero =>
    obtain rfl : p = [] := eq_nil_of_length_eq_zero (Nat.le_zero.mp hn)
    exact ⟨rfl, Nat.le_refl _, rfl, rfl, fun q => ⟨trivial, rfl⟩⟩
  | succ n ih =>
    rcases f.next_cases p with ⟨hnothing, hscan⟩ | ⟨hlaid, hwalk⟩
    · have hstop : f.drain (n + 1) off p = ([], off, p) := by
        rw [drain, hnothing]
        rfl
      rw [hstop]
      exact ⟨hscan, Nat.zero_le _, rfl, rfl, fun q => ⟨trivial, rfl⟩⟩
    have hpos : 0 < (f.next p).consumed := (hlaid []).pos
    have hle : (f.next p).consumed ≤ p.length := by
      have hle := (hlaid []).le
      rwa [append_nil] at hle
    obtain ⟨v, hv⟩ : ∃ v, v = f.next p := ⟨_, rfl⟩
    rw [← hv] at hlaid hwalk hpos hle
    obtain ⟨hscan, hfew, hoff, hrest, hall⟩ := ih (off + v.consumed) (p.drop v.consumed) (by
      rw [length_drop]
      omega)
    have hgo : f.drain (n + 1) off p =
        (⟨off, v⟩ :: (f.drain n (off + v.consumed) (p.drop v.consumed)).1,
          (f.drain n (off + v.consumed) (p.drop v.consumed)).2) := by
      rw [drain, ← hv]
      rw [if_neg (Nat.ne_of_gt hpos)]
    have hsum : ∀ gs, consumed (⟨off, v⟩ :: gs) = v.consumed + consumed gs := fun _ => sum_cons
    rw [hgo]
    rw [hsum]
    refine ⟨hscan, ?_, ?_, ?_, fun q => ⟨⟨rfl, hlaid q, ?_⟩, ?_⟩⟩
    · rw [length_drop] at hfew
      omega
    · rw [hoff, Nat.add_assoc]
    · rw [hrest, drop_drop]
    · have hafter := (hall q).1
      rw [drop_append_of_le_length hle]
      exact hafter
    · rw [hwalk, (hall q).2]
      exact (append_assoc ..).symm.trans (congrArg (· ++ _) (messages_append [⟨off, v⟩] _).symm)

/-! ## Streams -/

/-- A reader has returned what is to be found in the bytes it was fed, up to its buffer. -/
structure HasRead (f : FixFramer) (stream : Bytes) (r : Reader) : Prop where
  stuck : scan f.judge r.buffer = (0, none)
  le : r.off ≤ stream.length
  off : r.off = consumed r.got
  buffer : r.buffer = stream.drop r.off
  laid : ∀ q, Consecutive f 0 (stream ++ q) r.got
  found : ∀ q, walk f.judge 0 0 (stream ++ q) = messages r.got ++
    walk f.judge 0 r.off (r.buffer ++ q)

theorem HasRead.arrive {stream : Bytes} {r : Reader} (h : HasRead f stream r) (chunk : Bytes) :
    HasRead f (stream ++ chunk) (f.arrive r chunk) := by
  obtain ⟨hscan, hfew, hoff, hrest, hall⟩ := drain_spec (f := f) (r.buffer ++ chunk).length r.off
    (r.buffer ++ chunk) (Nat.le_refl _)
  have hbuffer : (stream ++ chunk).drop r.off = r.buffer ++ chunk := by
    rw [drop_append_of_le_length h.le, h.buffer]
  have hsum : ∀ a b : List Got, consumed (a ++ b) = consumed a + consumed b := by
    intro a b
    unfold consumed
    rw [map_append, sum_append]
  have hlen : (stream ++ chunk).length = r.off + (r.buffer ++ chunk).length := by
    have hle := h.le
    rw [length_append, length_append, h.buffer, length_drop]
    omega
  refine ⟨hscan, ?_, ?_, ?_, fun q => ?_, fun q => ?_⟩
  · show (f.drain _ _ _).2.1 ≤ _
    rw [hoff, hlen]
    exact Nat.add_le_add_left hfew _
  · show (f.drain _ _ _).2.1 = consumed (r.got ++ _)
    rw [hoff, hsum, h.off]
  · show (f.drain _ _ _).2.2 = List.drop (f.drain _ _ _).2.1 _
    rw [hrest, hoff, ← hbuffer, drop_drop]
  · have hbefore := h.laid (chunk ++ q)
    rw [← append_assoc] at hbefore
    refine Consecutive.append hbefore ?_
    rw [Nat.zero_add, ← h.off, append_assoc, drop_append_of_le_length h.le, ← h.buffer,
      ← append_assoc]
    exact (hall q).1
  · rw [append_assoc, h.found, ← append_assoc r.buffer, (hall q).2]
    show _ = messages (r.got ++ _) ++ _
    rw [messages_append, append_assoc]
    rfl

theorem hasRead_feed (f : FixFramer) (chunks : List Bytes) :
    HasRead f chunks.flatten (f.feed chunks) := by
  have hrun : ∀ (chunks : List Bytes) (stream : Bytes) (r : Reader), HasRead f stream r →
      HasRead f (stream ++ chunks.flatten) (chunks.foldl f.arrive r) := by
    intro chunks
    induction chunks with
    | nil =>
      intro stream r h
      rw [flatten_nil, append_nil]
      exact h
    | cons chunk chunks ih =>
      intro stream r h
      rw [flatten_cons, ← append_assoc]
      exact ih _ _ (h.arrive chunk)
  have hempty : HasRead f [] {} :=
    ⟨rfl, Nat.le_refl 0, rfl, rfl, fun _ => trivial, fun _ => rfl⟩
  exact hrun chunks [] {} hempty

/-- The messages that a reader has returned are those of the whole stream. -/
theorem HasRead.messages_eq {stream : Bytes} {r : Reader} (h : HasRead f stream r) :
    messages r.got = walk f.judge 0 0 stream := by
  have hfound := h.found []
  rw [append_nil, append_nil, walk_waiting h.stuck, append_nil] at hfound
  exact hfound.symm

/-- However a stream is cut into chunks, the framer returns the same messages at the same places;
its results are framed, consume bytes and stand one behind the other; and a stream of messages is
those messages. -/
theorem framer_ignores_chunks (f : FixFramer) (chunks : List Bytes) :
    messages (f.feed chunks).got = messages (f.feed [chunks.flatten]).got ∧
    Consecutive f 0 chunks.flatten (f.feed chunks).got ∧
    f.next (f.feed chunks).buffer = {} ∧
    ∀ msgs : List Bytes, (∀ m ∈ msgs, Framed f.maxMessage m) → chunks.flatten = msgs.flatten →
      (messages (f.feed chunks).got).map Prod.snd = msgs ∧ (f.feed chunks).buffer = [] := by
  have hread := hasRead_feed f chunks
  have hwhole := hasRead_feed f [chunks.flatten]
  rw [flatten_singleton] at hwhole
  have hlaid : Consecutive f 0 chunks.flatten (f.feed chunks).got := by
    have hlaid := hread.laid []
    rwa [append_nil] at hlaid
  have hexact : ∀ msgs : List Bytes, (∀ m ∈ msgs, Framed f.maxMessage m) →
      chunks.flatten = msgs.flatten → (messages (f.feed chunks).got).map Prod.snd = msgs := by
    intro msgs hmsgs hstream
    rw [hread.messages_eq, hstream]
    exact walk_flatten f.judge_steady (fun m hm => judge_framed (hmsgs m hm)) 0
  refine ⟨hread.messages_eq.trans hwhole.messages_eq.symm, hlaid, ?_, fun msgs hmsgs hstream =>
    ⟨hexact msgs hmsgs hstream, ?_⟩⟩
  · rcases next_cases (f := f) (f.feed chunks).buffer with ⟨hnothing, -⟩ | ⟨hlaid, -⟩
    · exact hnothing
    · rw [f.next_eq, hread.stuck] at hlaid
      exact absurd (hlaid []).pos (Nat.lt_irrefl 0)
  · have hle := hlaid.messages_le
    rw [hexact msgs hmsgs hstream, ← hstream, ← hread.off] at hle
    rw [hread.buffer, drop_eq_nil_of_le hle]

end FixFramer

end FastMM.Fix
