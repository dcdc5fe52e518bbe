/-
  Fix/Framed.lean --- a message that the framer takes, and what it says of the bytes so far.

  `Framed` is the structure of a message.  What is judged bad stays bad, and a frame stays that
  frame, however many bytes follow.
-/
import FastMM.Fix.Framer
import FastMM.Fix.ReadBack
set_option autoImplicit false

namespace FastMM.Fix

open Foundation List

/-- The structure of a message: a first field that begins with the prefix, the length of a body that
ends with a SOH, and a trailer. -/
structure Framed (maxMessage : Nat) (m : Bytes) : Prop where
  parts : ∃ field ds body ck : Bytes, m = field ++ (kSoh :: (ascii "9=" ++ (ds ++ (kSoh ::
      (body ++ (ascii "10=" ++ (ck ++ [kSoh]))))))) ∧
    kPrefix <+: field ∧ kSoh ∉ field ∧ field.length < kMaxBeginString ∧
    (∀ c ∈ ds, isDigitByte c = true) ∧ 1 ≤ ds.length ∧ ds.length ≤ kMaxBodyLengthDigits ∧
    readDigits 0 ds = body.length ∧ (∃ l, body = l ++ [kSoh]) ∧
    (∀ c ∈ ck, isDigitByte c = true) ∧ ck.length = 3
  size : m.length ≤ maxMessage

section Bytes

variable {a b p : Bytes} {c : UInt8} {i n k : Nat}

theorem getD_append_of_lt (h : i < a.length) (b : Bytes) : (a ++ b).getD i 0 = a.getD i 0 := by
  rw [getD_eq_getElem?_getD, getD_eq_getElem?_getD, getElem?_append_left h]

/-- A byte that is found is found again. -/
theorem memchr_append (h : memchr a 0 n c = some k) (hn : n ≤ a.length) {m : Nat} (hle : n ≤ m)
    (b : Bytes) : memchr (a ++ b) 0 m c = some k := by
  unfold memchr slice at h ⊢
  rw [drop_zero, Option.map_eq_some_iff] at h ⊢
  obtain ⟨i, hi, rfl⟩ := h
  refine ⟨i, ?_, rfl⟩
  have hsplit : (a ++ b).take m = a.take n ++ ((a ++ b).take m).drop n := by
    have hcut := (take_append_drop n ((a ++ b).take m)).symm
    rw [take_take, Nat.min_eq_left hle, take_append_of_le_length hn] at hcut
    exact hcut
  have hfirst : ((a.take n).findIdx? fun x => x == c) = some i := hi
  show ((a ++ b).take m).findIdx? _ = _
  rw [hsplit, findIdx?_append, hfirst]
  rfl

/-- A byte that is found, and what stands before it. -/
theorem memchr_some (h : memchr p 0 n c = some k) :
    k < n ∧ k < p.length ∧ p.getD k 0 = c ∧ c ∉ p.take k := by
  unfold memchr slice at h
  rw [drop_zero, Option.map_eq_some_iff] at h
  obtain ⟨i, hi, rfl⟩ := h
  obtain ⟨hlt, hat, hbefore⟩ := List.findIdx?_eq_some_iff_getElem.mp
    (show ((p.take n).findIdx? fun x => x == c) = some i from hi)
  rw [Nat.zero_add]
  rw [length_take] at hlt
  refine ⟨by omega, by omega, ?_, fun hmem => ?_⟩
  · rw [getElem_take] at hat
    have hk : i < p.length := by omega
    rw [getD_eq_getElem?_getD, getElem?_eq_getElem hk]
    exact eq_of_beq hat
  obtain ⟨j, hj⟩ := mem_iff_getElem?.mp hmem
  rw [getElem?_take] at hj
  split at hj
  · rename_i hji
    obtain ⟨hjlen, hjval⟩ := List.getElem?_eq_some_iff.mp hj
    refine hbefore j hji ?_
    rw [getElem_take, hjval]
    exact beq_self_eq_true c
  · exact absurd hj nofun

theorem drop_slice (p : Bytes) (i k : Nat) : p.drop i = slice i k p ++ p.drop (i + k) := by
  unfold slice
  rw [← drop_drop, take_append_drop]

theorem drop_getD (h : i < p.length) : p.drop i = p.getD i 0 :: p.drop (i + 1) := by
  rw [drop_eq_getElem_cons h, getD_eq_getElem?_getD, getElem?_eq_getElem h]
  rfl

theorem slice_succ (h : i + k < p.length) :
    slice i (k + 1) p = slice i k p ++ [p.getD (i + k) 0] := by
  unfold slice
  rw [take_add_one, getElem?_drop, getElem?_eq_getElem h, getD_eq_getElem?_getD,
    getElem?_eq_getElem h]
  rfl

end Bytes

/-! ## More bytes -/

variable {p : Bytes} {maxMessage soh t total : Nat}

theorem probeTrailer_append (h : total ≤ p.length) (ht : t + 7 = total) (q : Bytes) :
    probeTrailer (p ++ q) t total = probeTrailer p t total := by
  unfold probeTrailer
  rw [getD_append_of_lt (by omega), getD_append_of_lt (by omega), slice_append_left (by omega),
    slice_append_left (by omega)]

theorem probeLength_append (h : probeLength p maxMessage soh ≠ .needMore) (q : Bytes) :
    probeLength (p ++ q) maxMessage soh = probeLength p maxMessage soh := by
  unfold probeLength at h ⊢
  dsimp only at h ⊢
  rw [length_append]
  by_cases hshort : p.length < soh + 1 + 2
  · exact absurd (if_pos hshort) h
  rw [if_neg hshort] at h ⊢
  rw [if_neg (by omega), getD_append_of_lt (by omega), getD_append_of_lt (by omega)]
  by_cases hnine : p.getD (soh + 1) 0 ≠ 57 ∨ p.getD (soh + 1 + 1) 0 ≠ kEquals
  · rw [if_pos hnine, if_pos hnine]
  rw [if_neg hnine] at h ⊢
  rw [if_neg hnine, drop_append_of_le_length (by omega), takeWhile_append]
  have hwhole : (p.drop (soh + 1 + 2)).length = p.length - (soh + 1 + 2) := length_drop
  have hfew : ((p.drop (soh + 1 + 2)).takeWhile isDigitByte).length ≤ p.length - (soh + 1 + 2) :=
    hwhole ▸ ( takeWhile_prefix _).length_le
  by_cases hmany : kMaxBodyLengthDigits < ((p.drop (soh + 1 + 2)).takeWhile isDigitByte).length
  · rw [if_pos hmany, if_pos]
    split
    · rw [length_append]
      omega
    · exact hmany
  rw [if_neg hmany] at h ⊢
  by_cases hend : soh + 1 + 2 + ((p.drop (soh + 1 + 2)).takeWhile isDigitByte).length = p.length
  · exact absurd (if_pos hend) h
  rw [if_neg hend] at h ⊢
  have hstop : ¬ ((p.drop (soh + 1 + 2)).takeWhile isDigitByte).length =
      (p.drop (soh + 1 + 2)).length := by
    rw [hwhole]
    omega
  rw [if_neg hstop, if_neg hmany, if_neg (by omega), getD_append_of_lt (by omega)]
  generalize (p.drop (soh + 1 + 2)).takeWhile isDigitByte = ds at h ⊢
  split
  · rfl
  rename_i hbody
  rw [if_neg hbody] at h
  split
  · rfl
  rename_i hsize
  rw [if_neg hsize] at h
  by_cases hall : p.length < soh + 1 + 2 + ds.length + 1 + readDigits 0 ds + 7
  · exact absurd (if_pos hall) h
  · rw [if_neg hall, if_neg (by omega)]
    exact probeTrailer_append (Nat.le_of_not_lt hall) rfl q

/-- A verdict that is known stays. -/
theorem probe_append (h : probe p maxMessage ≠ .needMore) (q : Bytes) :
    probe (p ++ q) maxMessage = probe p maxMessage := by
  unfold probe at h ⊢
  cases hfind : memchr p 0 (min p.length kMaxBeginString) kSoh with
  | some soh =>
    rw [hfind] at h
    rw [memchr_append hfind (Nat.min_le_left _ _) (by rw [length_append]; omega)]
    exact probeLength_append h q
  | none =>
    rw [hfind] at h
    dsimp only at h ⊢
    by_cases hshort : p.length < kMaxBeginString
    · exact absurd (if_pos hshort) h
    have hmin : min p.length kMaxBeginString = kMaxBeginString := by omega
    have hmin' : min (p ++ q).length kMaxBeginString = kMaxBeginString := by
      rw [length_append]
      omega
    have hsame : memchr (p ++ q) 0 kMaxBeginString kSoh = memchr p 0 kMaxBeginString kSoh := by
      unfold memchr
      rw [slice_append_left (by omega)]
    rw [hmin] at hfind
    rw [hmin', hsame, hfind]
    rw [if_neg hshort, if_neg (by rw [length_append]; omega)]

/-! ## The structure of a frame -/

/-- The prefix is part of the first field. -/
theorem prefix_field {k : Nat} (hpre : kPrefix <+: p) (hk : k < p.length)
    (hsoh : p.getD k 0 = kSoh) : kPrefix <+: p.take k := by
  have hlong : 5 ≤ k := by
    by_contra hshort
    obtain ⟨q, rfl⟩ := hpre
    rw [getD_append_of_lt (show k < kPrefix.length by show k < 5; omega)] at hsoh
    have hcases : k = 0 ∨ k = 1 ∨ k = 2 ∨ k = 3 ∨ k = 4 := by omega
    rcases hcases with rfl | rfl | rfl | rfl | rfl <;> exact absurd hsoh (by decide)
  refine prefix_of_prefix_length_le hpre ( take_prefix _ _) ?_
  rw [length_take]
  show 5 ≤ _
  omega

/-- What the framer takes has the structure of a message. -/
theorem probe_framed {n : Nat} (h : probe p maxMessage = .frame n) (hpre : kPrefix <+: p) :
    Framed maxMessage (p.take n) ∧ 0 < n ∧ n ≤ p.length := by
  unfold probe at h
  split at h
  · split at h <;> exact absurd h nofun
  rename_i soh hsoh
  obtain ⟨hscan, hin, hat, hnone⟩ := memchr_some hsoh
  unfold probeLength at h
  dsimp only at h
  split at h
  · exact absurd h nofun
  rename_i hshort
  split at h
  · exact absurd h nofun
  rename_i hnine
  split at h
  · exact absurd h nofun
  rename_i hmany
  split at h
  · exact absurd h nofun
  rename_i hend
  split at h
  · exact absurd h nofun
  rename_i hbody
  split at h
  · exact absurd h nofun
  rename_i hsize
  split at h
  · exact absurd h nofun
  rename_i hall
  obtain ⟨ds, hds⟩ : ∃ ds, ds = (p.drop (soh + 1 + 2)).takeWhile isDigitByte := ⟨_, rfl⟩
  rw [← hds] at h hmany hend hbody hsize hall
  obtain ⟨len, hlen⟩ : ∃ len, len = readDigits 0 ds := ⟨_, rfl⟩
  rw [← hlen] at h hbody hsize hall
  simp only [not_or, ne_eq, Decidable.not_not] at hnine hbody
  unfold probeTrailer at h
  split at h
  · exact absurd h nofun
  rename_i htrailer
  split at h
  swap
  · exact absurd h nofun
  rename_i hck
  simp only [not_or, ne_eq, Decidable.not_not] at htrailer
  obtain rfl := Probe.frame.inj h
  -- the parts of the message, one behind the other
  have hfield := drop_getD (p := p) (i := soh) hin
  have hten := drop_getD (p := p) (i := soh + 1) (by omega)
  have hequals := drop_getD (p := p) (i := soh + 1 + 1) (by omega)
  have hlength : p.drop (soh + 1 + 2) = ds ++ p.drop (soh + 1 + 2 + ds.length) := by
    have hrun : slice (soh + 1 + 2) ds.length p = ds := by
      rw [hds]
      exact (prefix_iff_eq_take.mp ( takeWhile_prefix _)).symm
    rw [drop_slice p _ ds.length, hrun]
  have hsecond := drop_getD (p := p) (i := soh + 1 + 2 + ds.length) (by omega)
  have hpart := drop_slice p (soh + 1 + 2 + ds.length + 1) len
  have htag := drop_slice p (soh + 1 + 2 + ds.length + 1 + len) 3
  have hsum := drop_slice p (soh + 1 + 2 + ds.length + 1 + len + 3) 3
  have hlast := drop_getD (p := p) (i := soh + 1 + 2 + ds.length + 1 + len + 3 + 3) (by omega)
  have hend' : soh + 1 + 2 + ds.length + 1 + len + 7 - 1 =
      soh + 1 + 2 + ds.length + 1 + len + 3 + 3 := by omega
  rw [hend'] at htrailer
  rw [hat] at hfield
  rw [hnine.1] at hten
  rw [hnine.2] at hequals
  rw [hbody.2.1] at hsecond
  rw [htrailer.2.1] at htag
  rw [htrailer.2.2] at hlast
  have hwhole : p = (p.take soh ++ (kSoh :: (ascii "9=" ++ (ds ++ (kSoh ::
      (slice (soh + 1 + 2 + ds.length + 1) len p ++ (ascii "10=" ++
        (slice (soh + 1 + 2 + ds.length + 1 + len + 3) 3 p ++ [kSoh])))))))) ++
        p.drop (soh + 1 + 2 + ds.length + 1 + len + 7) := by
    have hcut := (take_append_drop soh p).symm
    rw [hfield, hten, hequals, hlength, hsecond, hpart, htag, hsum, hlast] at hcut
    simp only [append_assoc, cons_append, nil_append]
    exact hcut
  have hfirst : (p.take soh).length = soh := by
    rw [length_take]
    omega
  have hbodyLen : (slice (soh + 1 + 2 + ds.length + 1) len p).length = len :=
    length_slice (by omega)
  have hckLen : (slice (soh + 1 + 2 + ds.length + 1 + len + 3) 3 p).length = 3 :=
    length_slice (by omega)
  have htaken : p.take (soh + 1 + 2 + ds.length + 1 + len + 7) = p.take soh ++ (kSoh ::
      (ascii "9=" ++ (ds ++ (kSoh :: (slice (soh + 1 + 2 + ds.length + 1) len p ++ (ascii "10=" ++
        (slice (soh + 1 + 2 + ds.length + 1 + len + 3) 3 p ++ [kSoh]))))))) := by
    have hnine : (ascii "9=").length = 2 := rfl
    have hten : (ascii "10=").length = 3 := rfl
    refine (congrArg (List.take _) hwhole).trans (take_left' ?_)
    simp only [length_append, length_cons, length_nil, hfirst, hbodyLen, hckLen, hnine, hten]
    omega
  refine ⟨⟨⟨p.take soh, ds, _, _, htaken, prefix_field hpre hin hat, hnone, ?_, ?_, ?_,
    Nat.le_of_not_lt hmany, ?_, ?_, ?_, hckLen⟩, ?_⟩, by omega, Nat.le_of_not_lt hall⟩
  · rw [hfirst]
    omega
  · rw [hds]
    exact fun c hc => mem_takeWhile_imp hc
  · exact length_pos_iff.mpr hbody.1
  · rw [hbodyLen, hlen]
  · obtain ⟨k, rfl⟩ : ∃ k, len = k + 1 := ⟨len - 1, by omega⟩
    have hbefore : soh + 1 + 2 + ds.length + 1 + (k + 1) - 1 = soh + 1 + 2 + ds.length + 1 + k := by
      omega
    rw [hbefore] at htrailer
    rw [slice_succ (by omega), htrailer.1]
    exact ⟨_, rfl⟩
  · exact all_eq_true.mp hck
  · rw [length_take]
    omega

/-- A message is taken. -/
theorem probe_of_framed {m : Bytes} (h : Framed maxMessage m) :
    probe m maxMessage = .frame m.length := by
  obtain ⟨⟨field, ds, body, ck, hm, -, hsoh, hshort, hdigits, hpos, hfew, hlen,
    ⟨l, hl⟩, hck, hthree⟩, hsize⟩ := h
  have hnine : (ascii "9=").length = 2 := rfl
  have hten : (ascii "10=").length = 3 := rfl
  have hmlen : m.length = field.length + 1 + 2 + ds.length + 1 + body.length + 7 := by
    rw [hm]
    simp only [length_append, length_cons, length_nil, hnine, hten]
    omega
  have hbody : 0 < body.length := by
    rw [hl, length_append]
    exact Nat.lt_add_left _ Nat.one_pos
  obtain ⟨rest, hrest⟩ : ∃ rest, rest = ascii "9=" ++ (ds ++ (kSoh ::
    (body ++ (ascii "10=" ++ (ck ++ [kSoh]))))) := ⟨_, rfl⟩
  rw [← hrest] at hm
  have hfind : memchr m 0 (min m.length kMaxBeginString) kSoh = some field.length := by
    have hfound := memchr_middle hsoh [] (rest.take
      (min m.length kMaxBeginString - field.length - 1))
      (rest.drop (min m.length kMaxBeginString - field.length - 1))
    rw [take_append_drop, nil_append, ← hm, length_nil, Nat.zero_add] at hfound
    have hrestLen : rest.length = m.length - field.length - 1 := by
      rw [hm, length_append, length_cons]
      omega
    have hcount : field.length + 1 +
        (rest.take (min m.length kMaxBeginString - field.length - 1)).length =
          min m.length kMaxBeginString := by
      rw [length_take, hrestLen]
      omega
    rw [hcount] at hfound
    exact hfound
  -- the bytes from each place on
  obtain ⟨a, ha⟩ : ∃ a, a = field ++ [kSoh] := ⟨_, rfl⟩
  obtain ⟨b, hb⟩ : ∃ b, b = a ++ ascii "9=" := ⟨_, rfl⟩
  obtain ⟨d, hd⟩ : ∃ d, d = b ++ (ds ++ [kSoh]) := ⟨_, rfl⟩
  have halen : a.length = field.length + 1 := by
    rw [ha, length_append]
    rfl
  have hblen : b.length = field.length + 1 + 2 := by rw [hb, length_append, halen, hnine]
  have hdlen : d.length = field.length + 1 + 2 + ds.length + 1 := by
    rw [hd, length_append, length_append, hblen]
    rfl
  have hma : m = a ++ ((57 : UInt8) :: kEquals :: (ds ++ (kSoh ::
      (body ++ (ascii "10=" ++ (ck ++ [kSoh])))))) := by
    rw [hm, hrest, ha, append_assoc]
    rfl
  have hmb : m = b ++ (ds ++ (kSoh :: (body ++ (ascii "10=" ++ (ck ++ [kSoh]))))) := by
    rw [hma, hb, append_assoc]
    rfl
  have hmd : m = d ++ (body ++ (ascii "10=" ++ (ck ++ [kSoh]))) := by
    rw [hmb, hd]
    simp only [append_assoc, singleton_append]
  have hfirst : m.getD (field.length + 1) 0 = 57 := by
    rw [hma, ← halen]
    exact getD_middle _ _ _
  have hsecond : m.getD (field.length + 1 + 1) 0 = kEquals := by
    have hget := getD_middle (a ++ [57]) (ds ++ (kSoh :: (body ++ (ascii "10=" ++ (ck ++ [kSoh])))))
      kEquals
    rw [append_assoc, singleton_append, ← hma, length_append, halen] at hget
    exact hget
  have hrun : (m.drop (field.length + 1 + 2)).takeWhile isDigitByte = ds := by
    rw [hmb, drop_left' hblen]
    exact takeWhile_digits hdigits (by decide) _
  have hthird : m.getD (field.length + 1 + 2 + ds.length) 0 = kSoh := by
    have hget := getD_middle (b ++ ds) (body ++ (ascii "10=" ++ (ck ++ [kSoh]))) kSoh
    rw [append_assoc, ← hmb, length_append, hblen] at hget
    exact hget
  have hbefore : m.getD (field.length + 1 + 2 + ds.length + 1 + body.length - 1) 0 = kSoh := by
    have hget := getD_middle (d ++ l) (ascii "10=" ++ (ck ++ [kSoh])) kSoh
    have hwhole : d ++ l ++ kSoh :: (ascii "10=" ++ (ck ++ [kSoh])) = m := by
      rw [hmd, hl]
      simp only [append_assoc, singleton_append]
    have hplace : (d ++ l).length = field.length + 1 + 2 + ds.length + 1 + body.length - 1 := by
      rw [hl, length_append, length_append, hdlen]
      rfl
    rw [hwhole, hplace] at hget
    exact hget
  have htag : slice (field.length + 1 + 2 + ds.length + 1 + body.length) 3 m = ascii "10=" := by
    have hmiddle := slice_middle (d ++ body) (ascii "10=") (ck ++ [kSoh])
    rw [append_assoc, ← hmd, length_append, hdlen] at hmiddle
    exact hmiddle
  have hsum : slice (field.length + 1 + 2 + ds.length + 1 + body.length + 3) 3 m = ck := by
    have hmiddle := slice_middle (d ++ body ++ ascii "10=") ck [kSoh]
    rw [append_assoc (d ++ body), append_assoc d body (ascii "10=" ++ _), ← hmd,
      length_append, length_append, hdlen, hten, hthree] at hmiddle
    exact hmiddle
  have hlast : m.getD (field.length + 1 + 2 + ds.length + 1 + body.length + 7 - 1) 0 = kSoh := by
    have hget := getD_middle (d ++ body ++ (ascii "10=" ++ ck)) [] kSoh
    rw [append_assoc, append_assoc, append_assoc, ← hmd, length_append,
      length_append, length_append, hdlen, hten, hthree] at hget
    exact hget
  have hall : ck.all isDigitByte = true := all_eq_true.mpr hck
  unfold probe probeLength probeTrailer
  rw [hfind]
  dsimp only
  rw [hrun, hlen, hfirst, hsecond, hthird, hbefore, htag, hsum, hlast, if_neg (by omega),
    if_neg (by decide), if_neg (by omega), if_neg (by omega), if_neg, if_neg (by omega),
    if_neg (by omega), if_neg (by decide), if_pos hall, hmlen]
  rintro (hnil | hne | hzero)
  · rw [hnil] at hpos
    exact absurd hpos (Nat.lt_irrefl 0)
  · exact hne rfl
  · omega

end FastMM.Fix
