/-
  Fix/ReadBack.lean --- a view reads back what a builder wrote.

  The loop over fields takes a body apart field by field; a field ends where its SOH is, for no
  value has one.
-/
import FastMM.Fix.Parsed
import Mathlib.Data.List.TakeWhile
set_option autoImplicit false

namespace FastMM.Fix

open Foundation FixBuilder List

/-! ## Fields -/

/-- A field that can be written: a tag of at most nine digits, and a value without a SOH. -/
structure FieldOk (f : Nat × Bytes) : Prop where
  tag_pos : 1 ≤ f.1
  tag_le : f.1 ≤ 999999999
  value : f.2 ≠ []
  soh : kSoh ∉ f.2

/-- No field is the data of the length before it. -/
def NoData (tags : List Nat) : Prop := tags.IsChain fun a b => dataTagForLength a ≠ b

section Bytes

variable {a b l : Bytes} {c : UInt8}

theorem getD_middle (a b : Bytes) (c : UInt8) : (a ++ c :: b).getD a.length 0 = c := by
  rw [getD_eq_getElem?_getD, getElem?_append_right (Nat.le_refl _), Nat.sub_self]
  rfl

theorem memchr_middle (h : c ∉ l) (a b post : Bytes) :
    memchr (a ++ (l ++ c :: (b ++ post))) a.length (l.length + 1 + b.length) c =
      some (a.length + l.length) := by
  have hslice : slice a.length (l.length + 1 + b.length) (a ++ (l ++ c :: (b ++ post))) =
      l ++ c :: b := by
    have hmiddle := slice_middle a (l ++ c :: b) post
    rw [length_append, length_cons, append_assoc, cons_append] at hmiddle
    rw [show l.length + 1 + b.length = l.length + (b.length + 1) by omega]
    exact hmiddle
  unfold memchr
  rw [hslice]
  have hidx : (l ++ c :: b).idxOf? c = some l.length := by
    clear hslice
    induction l with
    | nil => exact List.idxOf?_cons.trans (if_pos (beq_self_eq_true c))
    | cons x l ih =>
      rw [mem_cons, not_or] at h
      rw [cons_append, idxOf?_cons, if_neg (by simpa using fun he => h.1 he.symm), ih h.2]
      rfl
  rw [hidx]
  rfl

theorem takeWhile_digits (h : ∀ x ∈ a, isDigitByte x = true)
    (hc : ¬ isDigitByte c = true) (b : Bytes) : (a ++ c :: b).takeWhile isDigitByte = a := by
  rw [takeWhile_append_of_pos h, takeWhile_cons_of_neg hc, append_nil]

end Bytes

namespace FixView

variable {v : FixView}
variable {fs : List (Nat × Bytes)}
variable (verifyChecksum : Bool)

theorem fields_add (h : v.entries.length < kMaxFields) (tag : Nat) {off len : Nat}
    (hoff : off < 2 ^ 32) (hlen : len < 2 ^ 32) :
    (v.add tag off len).fields = v.fields ++ [(tag, slice off len v.msg)] ∧
      (v.add tag off len).entries.length = v.entries.length + 1 := by
  unfold add fields
  rw [if_neg (Nat.not_le.mpr h), map_append, length_append, map_singleton,
    UInt32.toNat_ofNat_of_lt' hoff, UInt32.toNat_ofNat_of_lt' hlen]
  exact ⟨rfl, rfl⟩

theorem add_rest (v : FixView) (tag off len : Nat) :
    (v.add tag off len).msg = v.msg ∧ (v.add tag off len).bodyOff = v.bodyOff ∧
      (v.add tag off len).trailerOff = v.trailerOff := by
  unfold add
  split <;> exact ⟨rfl, rfl, rfl⟩

/-- The fields of a body are parsed. -/
theorem parseFields_wire {m pre post : Bytes}
    {t n prevTag : Nat} (prevValue : Int) (hm : m = pre ++ (fieldsBytes fs ++ post))
    (ht : t = pre.length + (fieldsBytes fs).length) (hok : ∀ f ∈ fs, FieldOk f)
    (hdata : NoData (prevTag :: fs.map Prod.fst)) (hn : fs.length ≤ n) (hmsg : v.msg = m)
    (hsmall : t < 2 ^ 32) (hcount : v.entries.length + fs.length < kMaxFields) :
    ∃ v', parseFields m t n pre.length prevTag prevValue v = (.none, v') ∧
      v'.fields = v.fields ++ fs ∧ v'.msg = m ∧
      v'.entries.length = v.entries.length + fs.length := by
  induction fs generalizing pre v n prevTag prevValue with
  | nil =>
    refine ⟨v, ?_, (append_nil _).symm, hmsg, rfl⟩
    cases n with
    | zero => rfl
    | succ n => exact if_pos (by rw [ht]; exact Nat.le_refl _)
  | cons f fs ih =>
    obtain ⟨tag, value⟩ := f
    obtain ⟨n, rfl⟩ : ∃ k, n = k + 1 := ⟨n - 1, by rw [length_cons] at hn; omega⟩
    have hf : FieldOk (tag, value) := hok _ mem_cons_self
    have htag : 1 ≤ tag := hf.tag_pos
    have hdigits : countDigits tag ≤ 9 := countDigits_le (by decide) (Nat.lt_succ_of_le hf.tag_le)
    have hvalue : 0 < value.length := length_pos_iff.mpr hf.value
    rw [fieldsBytes_cons, append_assoc] at hm
    rw [fieldsBytes_cons, length_append, length_fieldBytes] at ht
    dsimp only at hm ht
    -- the bytes from the tag on, and from the value on
    have hfrom : m = pre ++ (decimalBytes tag ++ kEquals ::
        (value ++ kSoh :: (fieldsBytes fs ++ post))) := by
      rw [hm]
      unfold fieldBytes
      simp only [append_assoc, cons_append, nil_append]
    have hbehind : m = (pre ++ (decimalBytes tag ++ [kEquals])) ++
        (value ++ kSoh :: (fieldsBytes fs ++ post)) := by
      rw [hfrom]
      simp only [append_assoc, cons_append, nil_append]
    have hbehind_len : (pre ++ (decimalBytes tag ++ [kEquals])).length =
        pre.length + countDigits tag + 1 := by
      rw [length_append, length_append, length_decimalBytes]
      rfl
    have hrun : (slice pre.length (t - pre.length) m).takeWhile isDigitByte = decimalBytes tag := by
      have hslice := slice_middle pre (fieldBytes tag value ++ fieldsBytes fs) post
      rw [length_append, length_fieldBytes, append_assoc, ← hm] at hslice
      rw [show t - pre.length = countDigits tag + value.length + 2 +
        (fieldsBytes fs).length by omega, hslice]
      unfold fieldBytes
      rw [append_assoc, cons_append]
      exact takeWhile_digits (fun x hx => isDigit_decimalBytes hx) (by decide) _
    have hequals : m.getD (pre.length + countDigits tag) 0 = kEquals := by
      have hget := getD_middle (pre ++ decimalBytes tag)
        (value ++ kSoh :: (fieldsBytes fs ++ post)) kEquals
      rw [length_append, length_decimalBytes, append_assoc, ← hfrom] at hget
      exact hget
    have hhead : m.getD pre.length 0 ≠ 48 := by
      obtain ⟨c, ds, hcons⟩ := exists_cons_of_ne_nil (decimalBytes_ne_nil tag)
      have hget := getD_middle pre (ds ++ kEquals :: (value ++ kSoh :: (fieldsBytes fs ++ post))) c
      rw [← cons_append, ← hcons, ← hfrom] at hget
      rw [hget]
      exact head_decimalBytes htag hcons
    have hnot : ¬ (prevTag ≠ 0 ∧ dataTagForLength prevTag = tag ∧ 0 ≤ prevValue) := by
      intro h
      exact (isChain_cons_cons.mp hdata).1 h.2.1
    have hlen : valueLen m t (pre.length + countDigits tag + 1) tag prevTag prevValue =
        some value.length := by
      have hfind := memchr_middle hf.soh (pre ++ (decimalBytes tag ++ [kEquals]))
        (fieldsBytes fs) post
      rw [hbehind_len, ← hbehind] at hfind
      unfold valueLen
      rw [if_neg hnot, show t - (pre.length + countDigits tag + 1) =
        value.length + 1 + (fieldsBytes fs).length by omega, hfind]
      exact congrArg some (Nat.add_sub_cancel_left _ _)
    have hslice : slice (pre.length + countDigits tag + 1) value.length m = value := by
      have hmiddle := slice_middle (pre ++ (decimalBytes tag ++ [kEquals])) value
        (kSoh :: (fieldsBytes fs ++ post))
      rw [hbehind_len, ← hbehind] at hmiddle
      exact hmiddle
    rw [length_cons] at hcount hn
    obtain ⟨hfields, hentries⟩ := @fields_add v (by omega) tag (pre.length + countDigits tag + 1)
      value.length (by omega) (by omega)
    obtain ⟨hmsg', -, -⟩ := v.add_rest tag (pre.length + countDigits tag + 1) value.length
    have hnext : (pre ++ fieldBytes tag value).length =
        pre.length + countDigits tag + 1 + value.length + 1 := by
      rw [length_append, length_fieldBytes]
      omega
    rw [parseFields, if_neg (by omega)]
    dsimp only
    rw [hrun, length_decimalBytes, readDigits_decimalBytes, if_neg (by omega), if_neg, hlen]
    · dsimp only
      rw [if_neg (by omega), if_neg (by omega), ← hnext]
      have hm' : m = (pre ++ fieldBytes tag value) ++ (fieldsBytes fs ++ post) := by
        rw [hm, append_assoc]
      obtain ⟨v', hparse, hall, hmsg'', hcount'⟩ := ih _ hm' (by omega)
        (fun f hf => hok f (mem_cons_of_mem _ hf)) (isChain_cons_cons.mp hdata).2
        (Nat.le_of_succ_le_succ hn) (hmsg'.trans hmsg) (by omega)
      refine ⟨v', hparse, ?_, hmsg'', ?_⟩
      · rw [hall, hfields, hmsg, hslice, append_assoc]
        rfl
      · rw [hcount', hentries, length_cons]
        omega
    · rintro (hnil | hshort | hne | hzero | hlead)
      · exact decimalBytes_ne_nil tag hnil
      · omega
      · exact hne hequals
      · omega
      · exact hhead hlead

/-- A body ends with a SOH. -/
theorem fieldsBytes_last (f : Nat × Bytes) (fs : List (Nat × Bytes)) :
    ∃ l, fieldsBytes (f :: fs) = l ++ [kSoh] := by
  induction fs generalizing f with
  | nil =>
    refine ⟨decimalBytes f.1 ++ kEquals :: f.2, ?_⟩
    unfold fieldsBytes fieldBytes
    rw [flatMap_singleton, append_assoc, cons_append]
  | cons g fs ih =>
    obtain ⟨l, hl⟩ := ih g
    exact ⟨fieldBytes f.1 f.2 ++ l, by rw [fieldsBytes_cons, hl, append_assoc]⟩

theorem length_le_fieldsBytes (fs : List (Nat × Bytes)) : fs.length ≤ (fieldsBytes fs).length := by
  induction fs with
  | nil => exact Nat.le_refl _
  | cons f fs ih =>
    rw [fieldsBytes_cons, length_cons, length_append, length_fieldBytes]
    omega

theorem checksum_lt (s : Bytes) : checksum s < 256 := Nat.mod_lt _ (by decide)

theorem readDigits_checksum (s : Bytes) : readDigits 0 (writeDigits 3 (checksum s)) =
    checksum s := by
  have hlt := checksum_lt s
  rw [readDigits_writeDigits, Nat.zero_mul, Nat.zero_add, Nat.mod_eq_of_lt]
  omega

/-- A body and its trailer are parsed. -/
theorem parseBody_wire {m head mt : Bytes}
    (hm : m = head ++ (fieldsBytes ((Tag.kMsgType, mt) :: fs) ++
      trailer (head ++ fieldsBytes ((Tag.kMsgType, mt) :: fs))))
    (hbody : v.bodyOff = head.length)
    (htrailer : v.trailerOff = head.length + (fieldsBytes ((Tag.kMsgType, mt) :: fs)).length)
    (hok : ∀ f ∈ (Tag.kMsgType, mt) :: fs, FieldOk f) (hdata : NoData (fs.map Prod.fst))
    (hmsg : v.msg = m) (hcount : v.entries.length = 2) (hfit : fs.length + 5 ≤ kMaxFields)
    (hsmall : m.length < 2 ^ 32) :
    (v.parseBody m verifyChecksum).1 = .none ∧ (v.parseBody m verifyChecksum).2.valid = true ∧
      (v.parseBody m verifyChecksum).2.msgType = mt ∧
      (v.parseBody m verifyChecksum).2.fields = v.fields ++ (((Tag.kMsgType, mt) :: fs) ++
        [(Tag.kCheckSum,
          writeDigits 3 (checksum (head ++ fieldsBytes ((Tag.kMsgType, mt) :: fs))))]) := by
  obtain ⟨body, hb⟩ : ∃ body, body = fieldsBytes ((Tag.kMsgType, mt) :: fs) := ⟨_, rfl⟩
  obtain ⟨sum, hsum⟩ : ∃ sum, sum = checksum (head ++ body) := ⟨_, rfl⟩
  have hparse : ∃ v', parseFields m v.trailerOff (v.trailerOff - v.bodyOff) v.bodyOff 0 (-1) v =
      (.none, v') ∧ v'.fields = v.fields ++ (Tag.kMsgType, mt) :: fs ∧ v'.msg = m ∧
      v'.entries.length = v.entries.length + (fs.length + 1) := by
    have hchain : NoData (0 :: ((Tag.kMsgType, mt) :: fs).map Prod.fst) := by
      refine isChain_cons_cons.mpr ⟨(by decide : dataTagForLength 0 ≠ 35), ?_⟩
      cases fs with
      | nil => exact .singleton _
      | cons f fs =>
        refine isChain_cons_cons.mpr ⟨?_, hdata⟩
        have hpos := (hok f (mem_cons_of_mem _ mem_cons_self)).tag_pos
        show 0 ≠ f.1
        omega
    have hfuel : ((Tag.kMsgType, mt) :: fs).length ≤ v.trailerOff - v.bodyOff := by
      have hle := length_le_fieldsBytes ((Tag.kMsgType, mt) :: fs)
      omega
    rw [hbody] at hfuel ⊢
    have hends := congrArg length hm
    rw [length_append, length_append] at hends
    exact parseFields_wire (-1) hm htrailer hok hchain hfuel hmsg (by omega)
      (by rw [hcount, length_cons]; unfold kMaxFields at hfit ⊢; omega)
  obtain ⟨v', hrun, hfields, hmsg', hentries⟩ := hparse
  obtain ⟨l, hl⟩ := fieldsBytes_last (Tag.kMsgType, mt) fs
  rw [← hb] at hm htrailer hl ⊢
  rw [← hsum]
  have hlong : 0 < body.length := by
    rw [hl, length_append]
    exact Nat.lt_add_left _ Nat.one_pos
  -- the bytes of the trailer
  have hT : m = (head ++ body) ++ (ascii "10=" ++ (writeDigits 3 sum ++ [kSoh])) := by
    rw [hm, hsum]
    unfold trailer
    simp only [append_assoc]
  have ht : v.trailerOff = (head ++ body).length := by rw [htrailer, length_append]
  have hten : slice v.trailerOff 3 m = ascii "10=" := by
    have hmiddle := slice_middle (head ++ body) (ascii "10=") (writeDigits 3 sum ++ [kSoh])
    rw [← hT, ← ht] at hmiddle
    exact hmiddle
  have hdeclared : slice (v.trailerOff + 3) 3 m = writeDigits 3 sum := by
    have hmiddle := slice_middle ((head ++ body) ++ ascii "10=") (writeDigits 3 sum) [kSoh]
    rw [length_writeDigits, length_append, ← ht, append_assoc (head ++ body), ← hT] at hmiddle
    exact hmiddle
  have hsize : v.trailerOff + 7 = m.length := by
    rw [ht, hm, length_append, length_append, length_append, length_trailer]
    omega
  have hlast : m.getD (m.length - 1) 0 = kSoh := by
    have hget := getD_middle ((head ++ body) ++ (ascii "10=" ++ writeDigits 3 sum)) [] kSoh
    rw [append_assoc, append_assoc (ascii "10="), ← hT, length_append, ← ht,
      length_append, length_writeDigits] at hget
    rw [← hsize]
    exact hget
  have hbefore : m.getD (v.trailerOff - 1) 0 = kSoh := by
    have hget := getD_middle (head ++ l) (trailer (head ++ body)) kSoh
    have hwhole : head ++ l ++ kSoh :: trailer (head ++ body) = m := by
      rw [hm, hl]
      simp only [append_assoc, cons_append, nil_append]
    have hpos : v.trailerOff - 1 = (head ++ l).length := by
      rw [ht, hl, length_append, length_append, length_append]
      rfl
    rw [hwhole, ← hpos] at hget
    exact hget
  have htake : m.take v.trailerOff = head ++ body := by
    rw [hT, take_left' ht.symm]
  have hdigits : (writeDigits 3 sum).all isDigitByte = true :=
    all_eq_true.mpr fun c hc => isDigit_writeDigits hc
  have hread : readDigits 0 (writeDigits 3 sum) = sum := by
    rw [hsum]
    exact readDigits_checksum _
  -- the third entry is the message type
  obtain ⟨e, he, htag, hvalue⟩ : ∃ e, v'.entries[2]? = some e ∧ e.tag = Tag.kMsgType ∧
      slice e.off.toNat e.len.toNat m = mt := by
    have hthird : v'.fields[2]? = some (Tag.kMsgType, mt) := by
      have hlen : v.fields.length = 2 := by
        unfold fields
        rw [length_map, hcount]
      rw [hfields, getElem?_append_right (by omega), hlen]
      rfl
    unfold fields at hthird
    rw [getElem?_map, Option.map_eq_some_iff] at hthird
    obtain ⟨e, he, hpair⟩ := hthird
    rw [hmsg'] at hpair
    exact ⟨e, he, congrArg Prod.fst hpair, congrArg Prod.snd hpair⟩
  obtain ⟨w, hw⟩ : ∃ w : FixView, w = { v' with msgType := slice e.off.toNat e.len.toNat m } :=
    ⟨_, rfl⟩
  have hroom : w.entries.length < kMaxFields := by
    rw [hw]
    show v'.entries.length < _
    omega
  obtain ⟨hadd, -⟩ := @fields_add w hroom Tag.kCheckSum (v.trailerOff + 3) 3 (by omega) (by decide)
  have hmsgw : w.msg = m := by
    rw [hw]
    exact hmsg'
  rw [hmsgw, hdeclared] at hadd
  have hfieldsw : w.fields = v.fields ++ (Tag.kMsgType, mt) :: fs := by
    rw [hw]
    exact hfields
  have htype : (w.add Tag.kCheckSum (v.trailerOff + 3) 3).msgType = mt := by
    rw [hw]
    unfold add
    split <;> exact hvalue
  unfold parseBody
  dsimp only
  rw [if_neg, hdeclared, if_neg (by rw [hdigits]; decide), hrun]
  · rw [if_neg (fun hne => hne rfl), he]
    dsimp only
    rw [if_neg (fun hne => hne htag), htake, hread, ← hsum, if_neg (fun hne => hne.2 rfl), ← hw]
    refine ⟨rfl, rfl, htype, ?_⟩
    show (w.add Tag.kCheckSum (v.trailerOff + 3) 3).fields = _
    rw [hadd, hfieldsw, append_assoc]
  · rintro (hsame | hne | hne | hne | hne)
    · omega
    · exact hne hsize
    · exact hne hbefore
    · exact hne hten
    · exact hne hlast

/-- The fields of a message that was built. -/
def wireFields (beginString mt : Bytes) (fs : List (Nat × Bytes)) : List (Nat × Bytes) :=
  [(Tag.kBeginString, beginString),
    (Tag.kBodyLength, decimalBytes (fieldsBytes ((Tag.kMsgType, mt) :: fs)).length)] ++
  (((Tag.kMsgType, mt) :: fs) ++ [(Tag.kCheckSum, writeDigits 3 (checksum
      (prefixBytes beginString (fieldsBytes ((Tag.kMsgType, mt) :: fs)).length ++
        fieldsBytes ((Tag.kMsgType, mt) :: fs))))])

/-- What stands at the head of a message. -/
structure HeadRead (m beginString body rest : Bytes) : Prop where
  soh : memchr m 2 (m.length - 2) kSoh = some (2 + beginString.length)
  begins : slice 2 beginString.length m = beginString
  eight : m.getD 0 0 = 56 ∧ m.getD 1 0 = kEquals
  nine : m.getD (2 + beginString.length + 1) 0 = 57
  equals : m.getD (2 + beginString.length + 1 + 1) 0 = kEquals
  behind : m.drop (2 + beginString.length + 1 + 2) = decimalBytes body.length ++ kSoh :: rest

theorem headRead_wire {beginString : Bytes} (hsoh : kSoh ∉ beginString) (body : Bytes) :
    HeadRead (wire beginString body) beginString body
      (body ++ trailer (prefixBytes beginString body.length ++ body)) := by
  obtain ⟨m, hm⟩ : ∃ m, m = wire beginString body := ⟨_, rfl⟩
  obtain ⟨rest, hrest⟩ : ∃ rest, rest = body ++
    trailer (prefixBytes beginString body.length ++ body) :=
    ⟨_, rfl⟩
  rw [← hm, ← hrest]
  have hsize : m.length = 13 + beginString.length + countDigits body.length + body.length := by
    rw [hm, length_wire]
  have htail : rest.length = body.length + 7 := by
    rw [hrest, length_append, length_trailer]
  have hfrom : m = ascii "8=" ++ (beginString ++ kSoh ::
    ((ascii "9=" ++ (decimalBytes body.length ++
      [kSoh])) ++ rest)) := by
    rw [hm, hrest]
    unfold wire prefixBytes
    simp only [append_assoc, cons_append, nil_append]
  obtain ⟨front, hfront⟩ : ∃ front, front = ascii "8=" ++ (beginString ++ [kSoh]) := ⟨_, rfl⟩
  have hflen : front.length = 2 + beginString.length + 1 := by
    rw [hfront, length_append, length_append]
    rfl
  have hnine : m = front ++ ((57 : UInt8) :: kEquals :: (decimalBytes body.length ++
      kSoh :: rest)) := by
    rw [hfrom, hfront]
    simp only [append_assoc, cons_append, nil_append]
    rfl
  refine ⟨?_, ?_, ?_, ?_, ?_, ?_⟩
  · have hfind := memchr_middle hsoh (ascii "8=")
      (ascii "9=" ++ (decimalBytes body.length ++ [kSoh]) ++ rest) []
    rw [append_nil, ← hfrom] at hfind
    have hroom : m.length - 2 = beginString.length + 1 +
        (ascii "9=" ++ (decimalBytes body.length ++ [kSoh]) ++ rest).length := by
      rw [hsize, length_append, length_append, length_append, length_decimalBytes, htail]
      show _ = beginString.length + 1 + (2 + (countDigits body.length + 1) + (body.length + 7))
      omega
    rw [hroom]
    exact hfind
  · have hmiddle := slice_middle (ascii "8=") beginString
      (kSoh :: ((ascii "9=" ++ (decimalBytes body.length ++ [kSoh])) ++ rest))
    rw [← hfrom] at hmiddle
    exact hmiddle
  · rw [hfrom]
    exact ⟨rfl, rfl⟩
  · rw [hnine, ← hflen]
    exact getD_middle _ _ _
  · have hget := getD_middle (front ++ [57]) (decimalBytes body.length ++ kSoh :: rest) kEquals
    rw [append_assoc, singleton_append, ← hnine, length_append, hflen] at hget
    exact hget
  have hbehind : m = (front ++ ascii "9=") ++ (decimalBytes body.length ++ kSoh :: rest) := by
    rw [hnine, append_assoc]
    rfl
  rw [hbehind, drop_left']
  rw [length_append, hflen]
  rfl

/-- A whole message is parsed. -/
theorem parse_wire {beginString expected mt : Bytes} (hbegin : beginString ≠ [])
    (hsoh : kSoh ∉ beginString) (hexpected : expected = [] ∨ expected = beginString)
    (hok : ∀ f ∈ (Tag.kMsgType, mt) :: fs, FieldOk f) (hdata : NoData (fs.map Prod.fst))
    (hfit : fs.length + 5 ≤ kMaxFields)
    (hlong : (fieldsBytes ((Tag.kMsgType, mt) :: fs)).length ≤ 9999999)
    (hsmall : (wire beginString (fieldsBytes ((Tag.kMsgType, mt) :: fs))).length < 2 ^ 32) :
    let p :=
      v.parse (wire beginString (fieldsBytes ((Tag.kMsgType, mt) :: fs))) expected verifyChecksum
    p.1 = .none ∧ p.2.valid = true ∧ p.2.msgType = mt ∧
      p.2.fields = wireFields beginString mt fs := by
  unfold wireFields
  obtain ⟨body, hbody⟩ : ∃ body, body = fieldsBytes ((Tag.kMsgType, mt) :: fs) := ⟨_, rfl⟩
  have hhead := headRead_wire hsoh body
  rw [← hbody] at hlong hsmall ⊢
  obtain ⟨m, hm⟩ : ∃ m, m = wire beginString body := ⟨_, rfl⟩
  rw [← hm] at hhead hsmall ⊢
  have hpos : 0 < beginString.length := length_pos_iff.mpr hbegin
  have hsize : m.length = 13 + beginString.length + countDigits body.length + body.length := by
    rw [hm, length_wire]
  have hdigits : countDigits body.length ≤ 7 := countDigits_le (by decide) (Nat.lt_succ_of_le hlong)
  have hone := countDigits_pos body.length
  have hleast : 5 ≤ body.length := by
    have htag : countDigits Tag.kMsgType = 2 := rfl
    have hmt : 0 < mt.length := length_pos_iff.mpr (hok _ mem_cons_self).value
    rw [hbody, fieldsBytes_cons, length_append, length_fieldBytes]
    dsimp only
    omega
  have hrun : (slice (2 + beginString.length + 1 + 2) (kMaxBodyLengthDigits + 1) m).takeWhile
      isDigitByte = decimalBytes body.length := by
    unfold slice
    rw [hhead.behind, take_append, take_of_length_le (by
      rw [length_decimalBytes]; exact Nat.le_succ_of_le hdigits)]
    obtain ⟨k, hk⟩ : ∃ k, kMaxBodyLengthDigits + 1 - (decimalBytes body.length).length = k + 1 :=
      ⟨7 - countDigits body.length, by rw [length_decimalBytes]; unfold kMaxBodyLengthDigits; omega⟩
    rw [hk, take_succ_cons]
    exact takeWhile_digits (fun c hc => isDigit_decimalBytes hc) (by decide) _
  have hafter : m.getD (2 + beginString.length + 1 + 2 + countDigits body.length) 0 = kSoh := by
    rw [getD_eq_getElem?_getD, ← getElem?_drop, hhead.behind, ← getD_eq_getElem?_getD,
      ← length_decimalBytes]
    exact getD_middle _ _ _
  have hlength : slice (2 + beginString.length + 1 + 2) (countDigits body.length) m =
      decimalBytes body.length := by
    unfold slice
    rw [hhead.behind, take_left' (length_decimalBytes _)]
  -- the entries before the body
  obtain ⟨v₀, hv₀⟩ : ∃ v₀ : FixView,
      v₀ = { v.clearIndex with valid := false, msg := m, msgType := [] } :=
    ⟨_, rfl⟩
  have hempty : v₀.entries = [] ∧ v₀.msg = m := by
    rw [hv₀]
    exact ⟨rfl, rfl⟩
  obtain ⟨hfields₁, hcount₁⟩ := @fields_add v₀ (by rw [hempty.1]; decide) Tag.kBeginString 2
    beginString.length (by decide) (by omega)
  have hmsg₁ := (v₀.add_rest Tag.kBeginString 2 beginString.length).1
  obtain ⟨v₁, hv₁⟩ : ∃ v₁, v₁ = v₀.add Tag.kBeginString 2 beginString.length := ⟨_, rfl⟩
  rw [← hv₁, hempty.1] at hcount₁
  rw [← hv₁, hempty.2] at hfields₁ hmsg₁
  obtain ⟨hfields₂, hcount₂⟩ := @fields_add v₁ (by rw [hcount₁]; decide) Tag.kBodyLength
    (2 + beginString.length + 1 + 2) (countDigits body.length) (by omega) (by omega)
  have hmsg₂ := (v₁.add_rest Tag.kBodyLength (2 + beginString.length + 1 + 2)
    (countDigits body.length)).1
  obtain ⟨v₂, hv₂⟩ : ∃ v₂, v₂ = v₁.add Tag.kBodyLength (2 + beginString.length + 1 + 2)
    (countDigits body.length) := ⟨_, rfl⟩
  rw [← hv₂, hcount₁] at hcount₂
  rw [← hv₂, hmsg₁] at hfields₂ hmsg₂
  have hprefix : (prefixBytes beginString body.length).length =
      2 + beginString.length + 1 + 2 + countDigits body.length + 1 := by
    rw [length_prefixBytes]
    omega
  have hparse : v.parse m expected verifyChecksum =
      ({ v₂ with
        bodyOff := 2 + beginString.length + 1 + 2 + countDigits body.length + 1
        trailerOff := 2 + beginString.length + 1 + 2 + countDigits body.length + 1 + body.length } :
        FixView).parseBody m verifyChecksum := by
    unfold parse
    rw [if_neg (by rw [hsize]; unfold kMinMessage; omega), if_neg, hhead.soh]
    · dsimp only
      rw [if_neg (by omega), Nat.add_sub_cancel_left, hhead.begins, if_neg, if_neg, hrun,
        length_decimalBytes, readDigits_decimalBytes, if_neg, ← hv₀, ← hv₁, ← hv₂]
      · rintro (hnil | hmany | hend | hne)
        · exact decimalBytes_ne_nil _ hnil
        · exact absurd hmany (Nat.not_lt.mpr hdigits)
        · omega
        · exact hne hafter
      · rintro (hend | hne | hne)
        · omega
        · exact hne hhead.nine
        · exact hne hhead.equals
      · rintro ⟨hne, hother⟩
        rcases hexpected with rfl | rfl
        · exact hne rfl
        · exact hother rfl
    · rintro (hne | hne)
      · exact hne hhead.eight.1
      · exact hne hhead.eight.2
  rw [hparse]
  have hm' : m = prefixBytes beginString body.length ++ (fieldsBytes ((Tag.kMsgType, mt) :: fs) ++
      trailer (prefixBytes beginString body.length ++ fieldsBytes ((Tag.kMsgType, mt) :: fs))) := by
    rw [hm, ← hbody]
    rfl
  obtain ⟨hnone, hvalid, htype, hall⟩ := parseBody_wire (v := { v₂ with
      bodyOff := 2 + beginString.length + 1 + 2 + countDigits body.length + 1
      trailerOff := 2 + beginString.length + 1 + 2 + countDigits body.length + 1 + body.length })
    verifyChecksum hm' hprefix.symm (by rw [← hbody, hprefix]) hok hdata hmsg₂ hcount₂ hfit hsmall
  refine ⟨hnone, hvalid, htype, ?_⟩
  have hstart : v₂.fields = [(Tag.kBeginString, beginString),
      (Tag.kBodyLength, decimalBytes body.length)] := by
    rw [hfields₂, hfields₁, hhead.begins, hlength]
    unfold fields
    rw [hempty.1]
    rfl
  rw [hall, ← hbody]
  exact congrArg (· ++ _) hstart

/-- A message whose length has more digits than a view reads does not parse. -/
theorem parse_long {beginString body : Bytes} (expected : Bytes) (verifyChecksum : Bool)
    (hsoh : kSoh ∉ beginString) (hlong : 10 ^ kMaxBodyLengthDigits ≤ body.length) :
    (v.parse (wire beginString body) expected verifyChecksum).1 ≠ .none := by
  have hhead := headRead_wire hsoh body
  have hdigits : kMaxBodyLengthDigits < countDigits body.length := by
    by_contra hfew
    have hlt := lt_pow_countDigits body.length
    have hle : 10 ^ countDigits body.length ≤ 10 ^ kMaxBodyLengthDigits :=
      Nat.pow_le_pow_right (by decide) (Nat.le_of_not_lt hfew)
    omega
  have hrun : kMaxBodyLengthDigits < ((slice (2 + beginString.length + 1 + 2)
      (kMaxBodyLengthDigits + 1) (wire beginString body)).takeWhile isDigitByte).length := by
    unfold slice
    rw [hhead.behind, take_append_of_le_length (by rw [length_decimalBytes]; exact hdigits),
      takeWhile_eq_self_iff.mpr, length_take, length_decimalBytes]
    · omega
    · exact fun c hc => isDigit_decimalBytes (mem_of_mem_take hc)
  unfold parse
  dsimp only
  rw [hhead.soh]
  split
  · nofun
  split
  · nofun
  dsimp only
  split
  · nofun
  split
  · nofun
  split
  · nofun
  · rw [if_pos (.inr (.inl hrun))]
    nofun

end FixView

/-! ## Read back -/

open FixView

/-- A message of fields, in a buffer. -/
def FixBuilder.write (b : FixBuilder) (beginString mt : Bytes) (fs : List (Nat × Bytes)) :
    Nat × FixBuilder :=
  (fs.foldl (fun b f => b.field f.1 f.2) (b.start mt beginString)).finish

theorem write_builds (b : FixBuilder) (beginString mt : Bytes) (fs : List (Nat × Bytes)) :
    Builds (fs.foldl (fun b f => b.field f.1 f.2) (b.start mt beginString)) b.cap beginString
      (fieldsBytes ((Tag.kMsgType, mt) :: fs)) := by
  have hrun : ∀ (fs : List (Nat × Bytes)) (b' : FixBuilder) (body : Bytes),
      Builds b' b.cap beginString body →
        Builds (fs.foldl (fun b f => b.field f.1 f.2) b') b.cap beginString
          (body ++ fieldsBytes fs) := by
    intro fs
    induction fs with
    | nil =>
      intro b' body h
      have hnil : fieldsBytes [] = [] := rfl
      rw [hnil, append_nil]
      exact h
    | cons f fs ih =>
      intro b' body h
      rw [fieldsBytes_cons, ← append_assoc]
      exact ih _ _ (h.field f.1 f.2)
  exact hrun fs _ _ (Builds.start b mt beginString)

/-- What is written is the message, where there is room. -/
theorem write_eq (b : FixBuilder) (beginString mt : Bytes) (fs : List (Nat × Bytes))
    (hn : 0 < (b.write beginString mt fs).1) :
    (b.write beginString mt fs).2.buf.take (b.write beginString mt fs).1 =
      wire beginString (fieldsBytes ((Tag.kMsgType, mt) :: fs)) := by
  rcases (write_builds b beginString mt fs).finish with ⟨-, hlen, hbuf⟩ | ⟨-, hzero⟩
  · show (finish _).2.buf.take (finish _).1 = _
    rw [hlen, hbuf, take_length]
  · exact absurd (hzero ▸ hn : 0 < 0) (Nat.lt_irrefl 0)

/-- A view reads back what a builder wrote. -/
def ReadsBack (b : FixBuilder) (calls : List (Bytes × Bytes × Bool))
    (expected beginString mt : Bytes) (fs : List (Nat × Bytes)) : Prop :=
  let m := (b.write beginString mt fs).2.buf.take (b.write beginString mt fs).1
  let p := (after calls).parse m expected true
  p.1 = .none ∧ (∀ i, p.2.field i = (wireFields beginString mt fs)[i]?) ∧
    (∀ tag, p.2.find tag 0 = (wireFields beginString mt fs).findIdx? fun f => decide (f.1 = tag)) ∧
    ∀ (i : Nat) (x c : UInt8) (w : FixView), m[i]? = some x → c ≠ x →
      (w.parse (m.set i c) expected true).1 ≠ .none

/-- A view reads back the fields that a builder wrote, whatever it parsed before. -/
theorem view_reads_back (b : FixBuilder) (calls : List (Bytes × Bytes × Bool))
    {expected beginString mt : Bytes} {fs : List (Nat × Bytes)} (hbegin : beginString ≠ [])
    (hsoh : kSoh ∉ beginString) (hexpected : expected = [] ∨ expected = beginString)
    (hmt : mt ≠ []) (hmtSoh : kSoh ∉ mt) (hok : ∀ f ∈ fs, FieldOk f)
    (hdata : NoData (fs.map Prod.fst)) (hfit : fs.length ≤ kMaxFields - 5)
    (hlong : (fieldsBytes ((Tag.kMsgType, mt) :: fs)).length ≤ 9999999)
    (hsmall : (b.write beginString mt fs).1 < 2 ^ 32) (hn : 0 < (b.write beginString mt fs).1) :
    ReadsBack b calls expected beginString mt fs := by
  unfold ReadsBack
  rw [write_eq b beginString mt fs hn]
  have hall : ∀ f ∈ (Tag.kMsgType, mt) :: fs, FieldOk f := by
    intro f hf
    rcases mem_cons.mp hf with rfl | hf
    · exact ⟨show 1 ≤ 35 by decide, show 35 ≤ 999999999 by decide, hmt, hmtSoh⟩
    · exact hok f hf
  have hroom : fs.length + 5 ≤ kMaxFields := by
    unfold kMaxFields at hfit ⊢
    omega
  have hwire := congrArg length (write_eq b beginString mt fs hn)
  rw [length_take] at hwire
  obtain ⟨hnone, -, -, hfields⟩ := parse_wire (v := after calls) true hbegin hsoh
    hexpected hall hdata hroom hlong (by omega)
  refine ⟨hnone, fun i => ?_, fun tag => ?_, fun i x c w hi hne => ?_⟩
  · rw [field_eq, hfields]
  · rw [((indexed_after calls).parse _ _ _).find, hfields]
  · exact parse_set hnone hi hne

theorem view_reads_back_heartbeat :
    ReadsBack { cap := 64 } [(ascii "8=FIX.4.4", [], true)] kBeginString44 kBeginString44
      MsgType.kHeartbeat [(Tag.kMsgSeqNum, ascii "12"), (Tag.kText, ascii "x")] :=
  view_reads_back _ _ (by decide) (by decide) (.inr rfl) (by decide) (by decide)
    (by
      intro f hf
      rcases mem_cons.mp hf with rfl | hf
      · exact ⟨by decide, by decide, by decide, by decide⟩
      · rw [mem_singleton.mp hf]
        exact ⟨by decide, by decide, by decide, by decide⟩)
    (.cons_cons (by decide) (.singleton _)) (by decide) (by decide) (by decide) (by decide)

/-- A value that is read back has a length an entry holds. -/
theorem not_readsBack_of_long {b : FixBuilder} {calls : List (Bytes × Bytes × Bool)}
    {expected beginString mt : Bytes} {fs : List (Nat × Bytes)}
    (hlong : 2 ^ 32 ≤ beginString.length) :
    ¬ ReadsBack b calls expected beginString mt fs := by
  rintro ⟨-, hfields, -⟩
  obtain ⟨e, -, he⟩ := Option.map_eq_some_iff.mp (hfields 0)
  have hvalue : beginString.length ≤ e.len.toNat := by
    obtain ⟨-, hvalue⟩ := Prod.mk.inj he
    rw [← hvalue]
    exact length_take_le _ _
  exact absurd e.len.toNat_lt (Nat.not_lt.mpr (hlong.trans hvalue))

/-- A builder writes a message without a begin string, one without a message type, one whose length
has eight digits and one whose begin string has more bytes than an entry counts: none is read
back. -/
theorem view_does_not_read_back :
    (0 < (FixBuilder.write { cap := 64 } [] MsgType.kHeartbeat [(Tag.kText, ascii "x")]).1 ∧
      ¬ ReadsBack { cap := 64 } [] [] [] MsgType.kHeartbeat [(Tag.kText, ascii "x")]) ∧
    (0 < (FixBuilder.write { cap := 64 } kBeginString44 [] [(Tag.kText, ascii "x")]).1 ∧
      ¬ ReadsBack { cap := 64 } [] kBeginString44 kBeginString44 [] [(Tag.kText, ascii "x")]) ∧
    FieldOk (Tag.kText, List.replicate 10000000 65) ∧
    0 < (FixBuilder.write { cap := 10000100 } kBeginString44 MsgType.kHeartbeat
      [(Tag.kText, List.replicate 10000000 65)]).1 ∧
    ¬ ReadsBack { cap := 10000100 } [] kBeginString44 kBeginString44 MsgType.kHeartbeat
      [(Tag.kText, List.replicate 10000000 65)] ∧
    0 < (FixBuilder.write { cap := 5000000000 } (List.replicate (2 ^ 32) 65) MsgType.kHeartbeat
      [(Tag.kText, ascii "x")]).1 ∧
    ¬ ReadsBack { cap := 5000000000 } [] [] (List.replicate (2 ^ 32) 65) MsgType.kHeartbeat
      [(Tag.kText, ascii "x")] := by
  obtain ⟨long, hlong⟩ : ∃ long : Bytes, long = List.replicate 10000000 65 := ⟨_, rfl⟩
  have hlen : long.length = 10000000 := by
    rw [hlong, length_replicate]
  have hmem : ∀ c ∈ long, c = 65 := by
    rw [hlong]
    exact fun c hc => eq_of_mem_replicate hc
  have hbody : (fieldsBytes ((Tag.kMsgType, MsgType.kHeartbeat) :: [(Tag.kText, long)])).length =
      10000009 := by
    rw [fieldsBytes_cons, fieldsBytes_cons, length_append, length_append, length_fieldBytes,
      length_fieldBytes]
    dsimp only
    rw [hlen]
    rfl
  have hfits : 0 < (FixBuilder.write { cap := 10000100 } kBeginString44 MsgType.kHeartbeat
      [(Tag.kText, long)]).1 := by
    have hdigits : countDigits 10000009 ≤ 8 := countDigits_le (by decide) (by decide)
    have hbegin : kBeginString44.length = 7 := rfl
    rcases (write_builds { cap := 10000100 } kBeginString44 MsgType.kHeartbeat
      [(Tag.kText, long)]).finish with ⟨-, hn, -⟩ | ⟨hfull, -⟩
    · refine Nat.lt_of_lt_of_eq ?_ hn.symm
      rw [length_wire]
      omega
    · rw [length_wire, hbody] at hfull
      dsimp only at hfull
      omega
  rw [← hlong]
  refine ⟨⟨by decide, fun h => absurd h.1 (by decide)⟩,
    ⟨by decide, fun h => absurd h.1 (by decide)⟩,
    ⟨show 1 ≤ 58 by decide, show 58 ≤ 999999999 by decide, ?_, fun hmemSoh => ?_⟩,
      hfits, fun h => ?_,
    ?_, not_readsBack_of_long (length_replicate ..).ge⟩
  · intro hnil
    dsimp only at hnil
    rw [hnil, length_nil] at hlen
    exact absurd hlen (by decide)
  · exact absurd (hmem _ hmemSoh) (by decide)
  · have hnone := h.1
    rw [write_eq _ _ _ _ hfits] at hnone
    refine parse_long kBeginString44 true (by decide) ?_ hnone
    rw [hbody]
    decide
  · rcases (write_builds { cap := 5000000000 } (List.replicate (2 ^ 32) 65) MsgType.kHeartbeat
      [(Tag.kText, ascii "x")]).finish with ⟨-, hn, -⟩ | ⟨hfull, -⟩
    · refine Nat.lt_of_lt_of_eq ?_ hn.symm
      rw [length_wire]
      omega
    · rw [length_wire, length_replicate] at hfull
      exact absurd hfull (by decide)

end FastMM.Fix
