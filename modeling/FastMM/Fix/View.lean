/-
  Fix/View.lean --- the index over a message.

  Source: `include/fastmm/codecs/fix/fix_view.hpp`, `src/codecs/fix/fix_view.cpp` (`FixView`).

  Entries past the count are never read, so the entries are the list of those counted.  A loop over
  digits is the longest run of them within its bound.
-/
import FastMM.Fix.Builder
import FastMM.Foundation.LittleEndian
import Mathlib.Logic.Function.Basic
set_option autoImplicit false

namespace FastMM.Fix

open Foundation

/-- `FixError`; a view that parsed has none. -/
inductive FixError where
  | none
  | truncated
  | badBeginString
  | badBodyLength
  | badMsgType
  | badField
  | badCheckSum
  | tooManyFields
  deriving DecidableEq, Repr

structure Entry where
  tag : Nat
  off : UInt32
  len : UInt32
  deriving DecidableEq, Repr

structure FixView where
  msg : Bytes := []
  msgType : Bytes := []
  entries : List Entry := []
  bodyOff : Nat := 0
  trailerOff : Nat := 0
  valid : Bool := false
  direct : Nat → Nat := fun _ => 0

def kMinMessage : Nat := 20

def kMaxBodyLengthDigits : Nat := 7

def dataTagForLength (lenTag : Nat) : Nat :=
  if lenTag = 90 then 91
  else if lenTag = 95 then 96
  else if lenTag = 212 then 213
  else if lenTag = 354 then 355
  else 0

/-- `memchr` of `n` bytes from `off` on. -/
def memchr (m : Bytes) (off n : Nat) (c : UInt8) : Option Nat :=
  ((slice off n m).idxOf? c).map (off + ·)

namespace FixView

variable (tag : Nat)

def kMaxFields : Nat := 1024
def kDirectTags : Nat := 1024

variable (v : FixView)

def add (tag off len : Nat) : FixView :=
  if kMaxFields ≤ v.entries.length then v
  else
    { v with
      entries := v.entries ++ [⟨tag, .ofNat off, .ofNat len⟩]
      direct :=
        if tag < kDirectTags ∧ v.direct tag = 0 then
          Function.update v.direct tag (v.entries.length + 1)
        else v.direct }

def clearIndex : FixView :=
  { v with
    direct := v.entries.foldl
      (fun d e => if e.tag < kDirectTags then Function.update d e.tag 0 else d) v.direct
    entries := [] }

/-- `field`: a tag and its value. -/
def field (i : Nat) : Option (Nat × Bytes) :=
  v.entries[i]?.map fun e => (e.tag, slice e.off.toNat e.len.toNat v.msg)

def find (tag off : Nat) : Option Nat :=
  if tag < kDirectTags ∧ off = 0 then
    if v.direct tag = 0 then Option.none else some (v.direct tag - 1)
  else ((v.entries.drop off).findIdx? fun e => e.tag = tag).map (off + ·)

def get : Bytes :=
  match v.find tag 0 with
  | Option.none => []
  | some i => (v.field i).elim [] Prod.snd

def getInt : Option Int := parseFixInt (v.get tag)
def getBool : Option Bool := parseFixBool (v.get tag)
def getTimestampNs : Option Int := parseUtcTimestamp (v.get tag)

/-- Where the value at `k` ends: as long as the field before says, or at its SOH. -/
def valueLen (m : Bytes) (t k tag prevTag : Nat) (prevValue : Int) : Option Nat :=
  if prevTag ≠ 0 ∧ dataTagForLength prevTag = tag ∧ 0 ≤ prevValue then
    if t ≤ k + prevValue.toNat ∨ m.getD (k + prevValue.toNat) 0 ≠ kSoh then Option.none
    else some prevValue.toNat
  else (memchr m k (t - k) kSoh).map (· - k)

/-- The loop over the fields of a body that ends at `t`. -/
def parseFields (m : Bytes) (t : Nat) : Nat → Nat → Nat → Int → FixView → FixError × FixView
  | 0, _, _, _, v => (.none, v)
  | n + 1, k, prevTag, prevValue, v =>
    if t ≤ k then (.none, v)
    else
      let ds := (slice k (t - k) m).takeWhile isDigitByte
      let tag := readDigits 0 ds
      if 9 < ds.length then (.badField, v)
      else if ds = [] ∨ t ≤ k + ds.length ∨ m.getD (k + ds.length) 0 ≠ kEquals ∨ tag = 0 ∨
          m.getD k 0 = 48 then (.badField, v)
      else
        let k := k + ds.length + 1
        match valueLen m t k tag prevTag prevValue with
        | Option.none => (.badField, v)
        | some vlen =>
          if vlen = 0 then (.badField, v)
          else if kMaxFields ≤ v.entries.length + 1 then (.tooManyFields, v)
          else
            let value :=
              if dataTagForLength tag ≠ 0 then (parseFixInt (slice k vlen m)).getD (-1) else -1
            parseFields m t n (k + vlen + 1) tag value (v.add tag k vlen)

/-- The end of `parse`, once the body is known to end at `t`. -/
def parseBody (m : Bytes) (verifyChecksum : Bool) : FixError × FixView :=
  let t := v.trailerOff
  if v.bodyOff = t ∨ t + 7 ≠ m.length ∨ m.getD (t - 1) 0 ≠ kSoh ∨ slice t 3 m ≠ ascii "10=" ∨
      m.getD (m.length - 1) 0 ≠ kSoh then (.badBodyLength, v)
  else
    let declared := slice (t + 3) 3 m
    if declared.all isDigitByte = false then (.badCheckSum, v)
    else
      let (err, v) := parseFields m t (t - v.bodyOff) v.bodyOff 0 (-1) v
      if err ≠ .none then (err, v)
      else
        match v.entries[2]? with
        | Option.none => (.badMsgType, v)
        | some e =>
          if e.tag ≠ Tag.kMsgType then (.badMsgType, v)
          else
            let v := { v with msgType := slice e.off.toNat e.len.toNat m }
            let v := v.add Tag.kCheckSum (t + 3) 3
            if verifyChecksum = true ∧ FixBuilder.checksum (m.take t) ≠ readDigits 0 declared then
              (.badCheckSum, v)
            else (.none, { v with valid := true })

def parse (m beginString : Bytes) (verifyChecksum : Bool) : FixError × FixView :=
  let v := { v.clearIndex with valid := false, msg := m, msgType := [] }
  let n := m.length
  if n < kMinMessage then (.truncated, v)
  else if m.getD 0 0 ≠ 56 ∨ m.getD 1 0 ≠ kEquals then (.badBeginString, v)
  else
    match memchr m 2 (n - 2) kSoh with
    | Option.none => (.badBeginString, v)
    | some bsEnd =>
      if bsEnd = 2 then (.badBeginString, v)
      else if beginString ≠ [] ∧ slice 2 (bsEnd - 2) m ≠ beginString then (.badBeginString, v)
      else
        let v := v.add Tag.kBeginString 2 (bsEnd - 2)
        let i := bsEnd + 1
        if n ≤ i + 2 ∨ m.getD i 0 ≠ 57 ∨ m.getD (i + 1) 0 ≠ kEquals then (.badBodyLength, v)
        else
          let ds := (slice (i + 2) (kMaxBodyLengthDigits + 1) m).takeWhile isDigitByte
          let j := i + 2 + ds.length
          if ds = [] ∨ kMaxBodyLengthDigits < ds.length ∨ n ≤ j ∨ m.getD j 0 ≠ kSoh then
            (.badBodyLength, v)
          else
            let v := v.add Tag.kBodyLength (i + 2) ds.length
            let v := { v with bodyOff := j + 1, trailerOff := j + 1 + readDigits 0 ds }
            v.parseBody m verifyChecksum

end FixView

end FastMM.Fix
