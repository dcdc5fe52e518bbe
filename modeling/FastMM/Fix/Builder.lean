/-
  Fix/Builder.lean --- a message written into a buffer.

  Source: `include/fastmm/codecs/fix/fix_builder.hpp` (`FixBuilder`).

  The buffer is what has been written of it and the room it has.  `wire` is the message a builder is
  to write: a header, a body and the sum of both.
-/
import FastMM.Fix.Values
set_option autoImplicit false

namespace FastMM.Fix

open Foundation List

/-! ## The builder -/

structure FixBuilder where
  cap : Nat
  buf : Bytes := []
  lenPos : Nat := 0
  bodyStart : Nat := 0
  headerEnd : Nat := 0
  ok : Bool := true

namespace FixBuilder

variable (b : FixBuilder)
variable (tag : Nat)
variable (s : Bytes)

def pos : Nat := b.buf.length

def put : FixBuilder :=
  if b.ok = false ∨ b.cap < b.pos + s.length then { b with ok := false }
  else { b with buf := b.buf ++ s }

def putUint (v : Nat) : FixBuilder := b.put (decimalBytes v)

def putTag : FixBuilder := (b.putUint tag).put [kEquals]

def putSoh : FixBuilder := b.put [kSoh]

def field (v : Bytes) : FixBuilder := ((b.putTag tag).put v).putSoh

def fieldChar (c : UInt8) : FixBuilder := ((b.putTag tag).put [c]).putSoh

def fieldUint (tag v : Nat) : FixBuilder := ((b.putTag tag).putUint v).putSoh

def fieldInt (v : Int) : FixBuilder :=
  let b := b.putTag tag
  let b := if v < 0 then (b.put [45]).putUint v.natAbs else b.putUint v.natAbs
  b.putSoh

def fieldTimestamp (ns : Int) : FixBuilder :=
  ((b.putTag tag).put (formatUtcTimestamp ns)).putSoh

def raw : FixBuilder := b.put s

/-- `begin`. -/
def start (msgType beginString : Bytes) : FixBuilder :=
  let b := { b with buf := [], ok := true }
  let b := ((b.put (ascii "8=")).put beginString).put (kSoh :: ascii "9=")
  let b := { b with lenPos := b.pos }
  let b := b.put (ascii "000" ++ [kSoh])
  let b := { b with bodyStart := b.pos }
  let b := b.field Tag.kMsgType msgType
  { b with headerEnd := b.pos }

def beginHeader (msgType sender target : Bytes) (seq : Nat) (sendingNs : Int) (possDup : Bool)
    (origSendingNs : Int) (beginString : Bytes) : FixBuilder :=
  let b := b.start msgType beginString
  let b := b.field Tag.kSenderCompID sender
  let b := b.field Tag.kTargetCompID target
  let b := b.fieldUint Tag.kMsgSeqNum seq
  let b := if possDup then b.fieldChar Tag.kPossDupFlag 89 else b
  let b := b.fieldTimestamp Tag.kSendingTime sendingNs
  let b := if possDup then b.fieldTimestamp Tag.kOrigSendingTime origSendingNs else b
  { b with headerEnd := b.pos }

/-- The sum of bytes, modulo 256. -/
def checksum : Nat := (s.map UInt8.toNat).sum % 256

/-- The trailer of a message. -/
def trailer : Bytes := ascii "10=" ++ writeDigits 3 (checksum s) ++ [kSoh]

/-- `finish`: the message's length, zero if it does not fit. -/
def finish : Nat × FixBuilder :=
  if b.ok = false then (0, b)
  else
    let bodyLen := b.pos - b.bodyStart
    let digits := countDigits bodyLen
    if 3 < digits ∧ b.cap < b.pos + (digits - 3 + 7) then (0, { b with ok := false })
    else
      -- the body is moved to where the length's digits and their SOH end
      let newStart := b.lenPos + digits + 1
      let b :=
        { b with
          buf := b.buf.take b.lenPos ++ (decimalBytes bodyLen ++ kSoh :: b.buf.drop b.bodyStart)
          headerEnd := b.headerEnd - b.bodyStart + newStart
          bodyStart := newStart }
      if b.cap < b.pos + 7 then (0, { b with ok := false })
      else
        let b := { b with buf := b.buf ++ trailer b.buf }
        (b.pos, b)

end FixBuilder

/-! ## Messages -/

open FixBuilder

/-- A field as it is written. -/
def fieldBytes (tag : Nat) (v : Bytes) : Bytes := decimalBytes tag ++ (kEquals :: (v ++ [kSoh]))

/-- What stands before a body. -/
def prefixBytes (beginString : Bytes) (bodyLen : Nat) : Bytes :=
  ascii "8=" ++ (beginString ++ (kSoh :: ascii "9=" ++ (decimalBytes bodyLen ++ [kSoh])))

/-- A message with this body. -/
def wire (beginString body : Bytes) : Bytes :=
  prefixBytes beginString body.length ++ (body ++
    trailer (prefixBytes beginString body.length ++ body))

/-- A list of fields as it is written. -/
def fieldsBytes (fs : List (Nat × Bytes)) : Bytes := fs.flatMap fun f => fieldBytes f.1 f.2

/-- A number with its sign. -/
def intBytes (v : Int) : Bytes :=
  if v < 0 then 45 :: decimalBytes v.natAbs else decimalBytes v.natAbs

/-- The fields of a standard header behind MsgType. -/
def headerFields (sender target : Bytes) (seq : Nat) (sendingNs : Int) (possDup : Bool)
    (origSendingNs : Int) : List (Nat × Bytes) :=
  [(Tag.kSenderCompID, sender), (Tag.kTargetCompID, target), (Tag.kMsgSeqNum, decimalBytes seq)] ++
    ((if possDup then [(Tag.kPossDupFlag, [89])] else []) ++
      ((Tag.kSendingTime, formatUtcTimestamp sendingNs) ::
        if possDup then [(Tag.kOrigSendingTime, formatUtcTimestamp origSendingNs)] else []))

section Wire

variable {b : FixBuilder} {beginString body s : Bytes} {cap tag : Nat}

@[simp] theorem length_trailer (s : Bytes) : (trailer s).length = 7 := by
  unfold trailer
  rw [length_append, length_append, length_writeDigits]
  rfl

@[simp] theorem length_prefixBytes (beginString : Bytes) (n : Nat) :
    (prefixBytes beginString n).length = 6 + beginString.length + countDigits n := by
  unfold prefixBytes
  rw [length_append, length_append, length_append, length_append, length_decimalBytes]
  show 2 + (beginString.length + (3 + (countDigits n + 1))) = _
  omega

theorem length_wire (beginString body : Bytes) : (wire beginString body).length =
    13 + beginString.length + countDigits body.length + body.length := by
  unfold wire
  rw [length_append, length_append, length_prefixBytes, length_trailer]
  omega

theorem fieldsBytes_append (fs gs : List (Nat × Bytes)) :
    fieldsBytes (fs ++ gs) = fieldsBytes fs ++ fieldsBytes gs := flatMap_append ..

theorem fieldsBytes_cons (f : Nat × Bytes) (fs : List (Nat × Bytes)) :
    fieldsBytes (f :: fs) = fieldBytes f.1 f.2 ++ fieldsBytes fs := flatMap_cons ..

theorem length_fieldBytes (tag : Nat) (value : Bytes) :
    (fieldBytes tag value).length = countDigits tag + value.length + 2 := by
  unfold fieldBytes
  rw [length_append, length_cons, length_append, length_decimalBytes]
  rfl

/-- The bytes of a message before its body, with a length that is still to be written. -/
def draft (beginString : Bytes) : Bytes :=
  ascii "8=" ++ (beginString ++ (kSoh :: ascii "9="))

@[simp] theorem length_draft (beginString : Bytes) :
    (draft beginString).length = 5 + beginString.length := by
  unfold draft
  rw [length_append, length_append]
  show 2 + (beginString.length + 3) = _
  omega

@[simp] theorem put_lenPos (b : FixBuilder) (s : Bytes) : (b.put s).lenPos = b.lenPos := by
  unfold FixBuilder.put
  split <;> rfl

@[simp] theorem put_bodyStart (b : FixBuilder) (s : Bytes) :
    (b.put s).bodyStart = b.bodyStart := by
  unfold FixBuilder.put
  split <;> rfl

/-- A buffer has these bytes, or they were too many for it. -/
structure Holds (b : FixBuilder) (cap : Nat) (s : Bytes) : Prop where
  room : b.cap = cap
  ok : b.ok = true ↔ s.length ≤ cap
  buf : b.ok = true → b.buf = s

theorem Holds.put (h : Holds b cap s) (t : Bytes) : Holds (b.put t) cap (s ++ t) := by
  unfold FixBuilder.put FixBuilder.pos
  by_cases hok : b.ok = true
  · rw [h.room, h.buf hok]
    by_cases hroom : cap < s.length + t.length
    · rw [if_pos (.inr hroom)]
      refine ⟨rfl, ?_, fun he => absurd he Bool.false_ne_true⟩
      rw [length_append]
      exact ⟨fun he => absurd he Bool.false_ne_true, fun he => by omega⟩
    · rw [if_neg (by rw [hok]; exact fun he => hroom (he.resolve_left (by decide)))]
      refine ⟨rfl, ?_, fun _ => rfl⟩
      rw [length_append]
      exact ⟨fun _ => by omega, fun _ => hok⟩
  · have hlong := mt h.ok.mpr hok
    rw [if_pos (.inl (Bool.not_eq_true _ ▸ hok))]
    refine ⟨h.room, ?_, fun he => absurd he Bool.false_ne_true⟩
    rw [length_append]
    exact ⟨fun he => absurd he Bool.false_ne_true, fun he => by omega⟩

/-- A builder that stands in a body, or has run out of room. -/
structure Builds (b : FixBuilder) (cap : Nat) (beginString body : Bytes) : Prop where
  holds : Holds b cap (draft beginString ++ (ascii "000" ++ (kSoh :: body)))
  lenPos : b.ok = true → b.lenPos = 5 + beginString.length
  bodyStart : b.ok = true → b.bodyStart = 9 + beginString.length

theorem length_drafted (beginString body : Bytes) :
    (draft beginString ++ (ascii "000" ++ (kSoh :: body))).length =
      9 + beginString.length + body.length := by
  rw [length_append, length_append, length_draft]
  show 5 + beginString.length + (3 + (body.length + 1)) = _
  omega

namespace Builds

section

variable (h : Builds b cap beginString body)
include h

/-- Bytes are put behind a body. -/
theorem put (s : Bytes) :
    Builds (b.put s) cap beginString (body ++ s) := by
  have hput := h.holds.put s
  simp only [append_assoc, cons_append] at hput
  have hbefore : (b.put s).ok = true → b.ok = true := by
    intro hok
    have hfit := hput.ok.mp hok
    rw [length_drafted, length_append] at hfit
    rw [h.holds.ok, length_drafted]
    omega
  refine ⟨hput, fun hok => ?_, fun hok => ?_⟩
  · rw [put_lenPos]
    exact h.lenPos (hbefore hok)
  · rw [put_bodyStart]
    exact h.bodyStart (hbefore hok)

theorem field (tag : Nat) (v : Bytes) :
    Builds (b.field tag v) cap beginString (body ++ fieldBytes tag v) := by
  have hput := (((h.put (decimalBytes tag)).put [kEquals]).put v).put [kSoh]
  simp only [append_assoc] at hput
  exact hput

theorem fieldUint (tag v : Nat) :
    Builds (b.fieldUint tag v) cap beginString (body ++ fieldBytes tag (decimalBytes v)) :=
  h.field tag (decimalBytes v)

theorem fieldChar (tag : Nat) (c : UInt8) :
    Builds (b.fieldChar tag c) cap beginString (body ++ fieldBytes tag [c]) := h.field tag [c]

theorem fieldTimestamp (tag : Nat) (ns : Int) :
    Builds (b.fieldTimestamp tag ns) cap beginString
      (body ++ fieldBytes tag (formatUtcTimestamp ns)) := h.field tag (formatUtcTimestamp ns)

theorem fieldInt (tag : Nat) (v : Int) :
    Builds (b.fieldInt tag v) cap beginString (body ++ fieldBytes tag (intBytes v)) := by
  unfold FixBuilder.fieldInt intBytes
  split
  · have hput := (((((h.put (decimalBytes tag)).put [kEquals]).put [45]).put
      (decimalBytes v.natAbs)).put [kSoh])
    simp only [append_assoc] at hput
    exact hput
  · exact h.field tag (decimalBytes v.natAbs)

theorem headerEnd (n : Nat) :
    Builds { b with headerEnd := n } cap beginString body :=
  ⟨⟨h.holds.room, h.holds.ok, h.holds.buf⟩, h.lenPos, h.bodyStart⟩

end

/-- A message is begun. -/
theorem start (b : FixBuilder) (msgType beginString : Bytes) :
    Builds (b.start msgType beginString) b.cap beginString (fieldBytes Tag.kMsgType msgType) := by
  have hempty : Holds { b with buf := [], ok := true } b.cap [] :=
    ⟨rfl, ⟨fun _ => Nat.zero_le _, fun _ => rfl⟩, fun _ => rfl⟩
  obtain ⟨b₁, hb₁⟩ : ∃ b₁ : FixBuilder, b₁ =
    ((({ b with buf := [], ok := true } : FixBuilder).put (ascii "8=")).put beginString).put
      (kSoh :: ascii "9=") := ⟨_, rfl⟩
  have h₁ : Holds b₁ b.cap (draft beginString) := by
    rw [hb₁]
    have hput := ((hempty.put (ascii "8=")).put beginString).put (kSoh :: ascii "9=")
    rw [nil_append, append_assoc] at hput
    exact hput
  obtain ⟨b₂, hb₂⟩ : ∃ b₂ : FixBuilder, b₂ =
    ({ b₁ with lenPos := b₁.pos } : FixBuilder).put (ascii "000" ++ [kSoh]) := ⟨_, rfl⟩
  have h₂ : Holds b₂ b.cap (draft beginString ++ (ascii "000" ++ [kSoh])) := by
    rw [hb₂]
    exact Holds.put (b := { b₁ with lenPos := b₁.pos }) ⟨h₁.room, h₁.ok, h₁.buf⟩ _
  have hbuilds : Builds { b₂ with bodyStart := b₂.pos } b.cap beginString [] := by
    refine ⟨⟨h₂.room, h₂.ok, h₂.buf⟩, fun hok => ?_, fun hok => ?_⟩
    · have hfit := h₂.ok.mp hok
      rw [length_drafted] at hfit
      have hok₁ : b₁.ok = true := by
        rw [h₁.ok, length_draft]
        omega
      rw [hb₂, put_lenPos]
      show b₁.buf.length = _
      rw [h₁.buf hok₁, length_draft]
    · show b₂.buf.length = _
      rw [h₂.buf hok, length_drafted]
      rfl
  have hfield := hbuilds.field Tag.kMsgType msgType
  rw [nil_append] at hfield
  have hstart : b.start msgType beginString =
      { ({ b₂ with bodyStart := b₂.pos } : FixBuilder).field Tag.kMsgType msgType with
        headerEnd := (({ b₂ with bodyStart := b₂.pos } : FixBuilder).field Tag.kMsgType
          msgType).pos } := by
    rw [hb₂, hb₁]
    rfl
  rw [hstart]
  exact hfield.headerEnd _

/-- A message is begun with a standard header. -/
theorem beginHeader (b : FixBuilder) (msgType sender target : Bytes) (seq : Nat) (sendingNs : Int)
    (possDup : Bool) (origSendingNs : Int) (beginString : Bytes) :
    Builds (b.beginHeader msgType sender target seq sendingNs possDup origSendingNs beginString)
      b.cap beginString (fieldsBytes ((Tag.kMsgType, msgType) ::
        headerFields sender target seq sendingNs possDup origSendingNs)) := by
  have h := (((start b msgType beginString).field Tag.kSenderCompID sender).field
    Tag.kTargetCompID target).fieldUint Tag.kMsgSeqNum seq
  unfold FixBuilder.beginHeader headerFields
  cases possDup with
  | false =>
    have hlast := h.fieldTimestamp Tag.kSendingTime sendingNs
    simp only [append_assoc] at hlast
    simp only [fieldsBytes, flatMap_cons, flatMap_nil, cons_append,
      nil_append, append_nil, Bool.false_eq_true, if_false]
    exact hlast.headerEnd _
  | true =>
    have hlast := ((h.fieldChar Tag.kPossDupFlag 89).fieldTimestamp Tag.kSendingTime
      sendingNs).fieldTimestamp Tag.kOrigSendingTime origSendingNs
    simp only [append_assoc] at hlast
    simp only [fieldsBytes, flatMap_cons, flatMap_nil, cons_append, nil_append, append_nil, if_true]
    exact hlast.headerEnd _

/-- The message is whole where it fits. -/
theorem finish (h : Builds b cap beginString body) :
    ((wire beginString body).length ≤ cap ∧ b.finish.1 = (wire beginString body).length ∧
      b.finish.2.buf = wire beginString body) ∨
    (cap < (wire beginString body).length ∧ b.finish.1 = 0) := by
  have hlen := length_wire beginString body
  unfold FixBuilder.finish
  by_cases hok : b.ok = true
  · have hfit := h.holds.ok.mp hok
    rw [length_drafted] at hfit
    have hbuf := h.holds.buf hok
    have hsize : b.pos = 9 + beginString.length + body.length := by
      unfold FixBuilder.pos
      rw [hbuf, length_drafted]
    have hbody : b.pos - b.bodyStart = body.length := by
      rw [hsize, h.bodyStart hok]
      omega
    rw [if_neg (by rw [hok]; decide)]
    dsimp only
    rw [hbody, h.holds.room, hsize]
    by_cases hshift : 3 < countDigits body.length ∧
        cap < 9 + beginString.length + body.length + (countDigits body.length - 3 + 7)
    · rw [if_pos hshift]
      exact .inr ⟨by omega, rfl⟩
    have htake : b.buf.take b.lenPos = draft beginString := by
      rw [hbuf, h.lenPos hok, take_left' (length_draft _)]
    have hdrop : b.buf.drop b.bodyStart = body := by
      have hcut : draft beginString ++ (ascii "000" ++ (kSoh :: body)) =
          (draft beginString ++ (ascii "000" ++ [kSoh])) ++ body := by
        simp only [append_assoc, cons_append, nil_append]
      rw [hbuf, hcut, h.bodyStart hok, drop_left']
      exact length_drafted beginString []
    have hwhole : b.buf.take b.lenPos ++ (decimalBytes body.length ++ kSoh ::
      b.buf.drop b.bodyStart) =
        prefixBytes beginString body.length ++ body := by
      rw [htake, hdrop]
      unfold draft prefixBytes
      simp only [append_assoc, cons_append, nil_append]
    rw [if_neg hshift, hwhole]
    unfold FixBuilder.pos
    rw [length_append, length_prefixBytes]
    split_ifs with hlong
    · exact .inr ⟨by omega, rfl⟩
    have hsame : prefixBytes beginString body.length ++ body ++
        trailer (prefixBytes beginString body.length ++ body) = wire beginString body := by
      unfold wire
      rw [append_assoc]
    rw [hsame]
    exact .inl ⟨by omega, rfl, rfl⟩
  · have hlong := mt h.holds.ok.mpr hok
    rw [length_drafted] at hlong
    rw [if_pos (Bool.not_eq_true _ ▸ hok)]
    exact .inr ⟨by omega, rfl⟩

end Builds

end Wire

end FastMM.Fix
