/-
  Fix/Values.lean --- tags, and the values that fields hold.

  Source: `include/fastmm/codecs/fix/fix_tags.hpp`, `fix_time.hpp`, and the value parsers of
  `fix_view.hpp`.

  A message is the list of its bytes.
-/
import FastMM.Foundation.DecimalBytes
set_option autoImplicit false

namespace FastMM.Fix

open Foundation

abbrev Bytes : Type := List UInt8

def kSoh : UInt8 := 1

/-- `'='`. -/
def kEquals : UInt8 := 61

def kBeginString44 : Bytes := ascii "FIX.4.4"

namespace Tag

def kBeginSeqNo : Nat := 7
def kBeginString : Nat := 8
def kBodyLength : Nat := 9
def kCheckSum : Nat := 10
def kEndSeqNo : Nat := 16
def kMsgSeqNum : Nat := 34
def kMsgType : Nat := 35
def kNewSeqNo : Nat := 36
def kPossDupFlag : Nat := 43
def kRefSeqNum : Nat := 45
def kSenderCompID : Nat := 49
def kSendingTime : Nat := 52
def kTargetCompID : Nat := 56
def kText : Nat := 58
def kEncryptMethod : Nat := 98
def kHeartBtInt : Nat := 108
def kTestReqID : Nat := 112
def kOrigSendingTime : Nat := 122
def kGapFillFlag : Nat := 123
def kResetSeqNumFlag : Nat := 141
def kRefTagID : Nat := 371
def kRefMsgType : Nat := 372
def kSessionRejectReason : Nat := 373

end Tag

namespace MsgType

def kHeartbeat : Bytes := ascii "0"
def kTestRequest : Bytes := ascii "1"
def kResendRequest : Bytes := ascii "2"
def kReject : Bytes := ascii "3"
def kSequenceReset : Bytes := ascii "4"
def kLogout : Bytes := ascii "5"
def kLogon : Bytes := ascii "A"

end MsgType

/-! ## Values -/

def parseFixInt : Bytes → Option Int
  | [] => none
  | c :: s =>
    let neg := decide (c = 45)
    let ds := if neg then s else c :: s
    if ds = [] ∨ 18 < ds.length then none
    else if ds.all isDigitByte then
      some (if neg then -(readDigits 0 ds : Int) else readDigits 0 ds)
    else none

def parseFixChar : Bytes → Option UInt8
  | [c] => some c
  | _ => none

/-- `parse_fix_bool`: `Y` or `N`. -/
def parseFixBool : Bytes → Option Bool
  | [c] => if c = 89 then some true else if c = 78 then some false else none
  | _ => none

/-- A number is below a quintillion. -/
theorem parseFixInt_lt {s : Bytes} {v : Int} (h : parseFixInt s = some v) :
    -10 ^ 18 < v ∧ v < 10 ^ 18 := by
  unfold parseFixInt at h
  cases s with
  | nil => nomatch h
  | cons c s =>
    dsimp only at h
    generalize (if decide (c = 45) = true then s else c :: s) = ds at h
    split at h
    · nomatch h
    rename_i hsize
    split at h
    · rename_i hall
      rw [not_or, Nat.not_lt] at hsize
      have hlt := readDigits_lt fun c hc => List.all_eq_true.mp hall c hc
      have hpow : 10 ^ ds.length ≤ 10 ^ 18 := Nat.pow_le_pow_right (by decide) hsize.2
      have hv := Option.some.inj h
      split at hv <;> omega
    · nomatch h

/-! ## Times -/

/-- What 64 bits hold of a sum that runs over. -/
def wrapInt64 (v : Int) : Int := v.bmod (2 ^ 64)

def daysFromCivil (y : Int) (m d : Nat) : Int :=
  let y := if m ≤ 2 then y - 1 else y
  let era := (if 0 ≤ y then y else y - 399).tdiv 400
  let yoe := (y - era * 400).toNat
  let doy := (153 * (if 2 < m then m - 3 else m + 9) + 2) / 5 + d - 1
  let doe := yoe * 365 + yoe / 4 - yoe / 100 + doy
  era * 146097 + doe - 719468

/-- `civil_from_days`: year, month and day. -/
def civilFromDays (z : Int) : Int × Nat × Nat :=
  let z := z + 719468
  let era := (if 0 ≤ z then z else z - 146096).tdiv 146097
  let doe := (z - era * 146097).toNat
  let yoe := (doe - doe / 1460 + doe / 36524 - doe / 146096) / 365
  let y : Int := yoe + era * 400
  let doy := doe - (365 * yoe + yoe / 4 - yoe / 100)
  let mp := (5 * doy + 2) / 153
  let d := doy - (153 * mp + 2) / 5 + 1
  let m := if mp < 10 then mp + 3 else mp - 9
  (if m ≤ 2 then y + 1 else y, m, d)

/-- `read_digits`. -/
def readNumber (s : Bytes) (pos n : Nat) : Option Nat :=
  let ds := (s.drop pos).take n
  if ds.all isDigitByte then some (readDigits 0 ds) else none

def parseUtcTimestamp (s : Bytes) : Option Int :=
  if s.length ≠ 17 ∧ s.length ≠ 21 ∧ s.length ≠ 24 ∧ s.length ≠ 27 then none
  else
    match readNumber s 0 4, readNumber s 4 2, readNumber s 6 2, readNumber s 9 2, readNumber s 12 2,
      readNumber s 15 2 with
    | some year, some mon, some day, some hh, some mm, some ss =>
      if s.getD 8 0 ≠ 45 ∨ s.getD 11 0 ≠ 58 ∨ s.getD 14 0 ≠ 58 then none
      else if mon < 1 ∨ 12 < mon ∨ day < 1 ∨ 31 < day ∨ 23 < hh ∨ 59 < mm ∨ 60 < ss then none
      else
        let fracNs : Option Nat :=
          if 17 < s.length then
            if s.getD 17 0 ≠ 46 then none
            else
              let n := s.length - 18
              (readNumber s 18 n).map fun f =>
                if n = 3 then f * 1000000 else if n = 6 then f * 1000 else f
          else some 0
        match fracNs with
        | none => none
        | some fracNs =>
          let days := daysFromCivil year mon day
          let secs := days * 86400 + hh * 3600 + mm * 60 + ss
          some (wrapInt64 (secs * 1000000000 + fracNs))
    | _, _, _, _, _, _ => none

def formatUtcTimestamp (ns : Int) : Bytes :=
  let ns := max ns 0
  let secs := ns.tdiv 1000000000
  let ms := ((ns.tdiv 1000000).tmod 1000).toNat
  let days := secs.tdiv 86400
  let sod := (secs.tmod 86400).toNat
  let (y, m, d) := civilFromDays days
  let put2 := fun v : Nat => [digitByte (v / 10), digitByte (v % 10)]
  let y := y.toNat
  [digitByte (y / 1000 % 10), digitByte (y / 100 % 10), digitByte (y / 10 % 10),
    digitByte (y % 10)] ++
    put2 m ++ put2 d ++ [45] ++ put2 (sod / 3600) ++ [58] ++ put2 (sod % 3600 / 60) ++ [58] ++
    put2 (sod % 3600 % 60) ++ [46, digitByte (ms / 100), digitByte (ms / 10 % 10),
      digitByte (ms % 10)]

def kUtcTimestampMillisChars : Nat := 21

theorem length_formatUtcTimestamp (ns : Int) :
    (formatUtcTimestamp ns).length = kUtcTimestampMillisChars := rfl

example : formatUtcTimestamp 1700000000123000000 = ascii "20231114-22:13:20.123" ∧
    parseUtcTimestamp (ascii "20231114-22:13:20.123") = some 1700000000123000000 := by
      decide +kernel

end FastMM.Fix
