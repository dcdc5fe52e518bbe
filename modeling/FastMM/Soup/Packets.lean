/-
  Soup/Packets.lean --- SoupBinTCP packets, built and taken apart.

  Source: `include/fastmm/codecs/soupbin/soupbin.hpp`, `src/codecs/soupbin/soupbin.cpp`, and the
  fields of `include/fastmm/codecs/itch/nasdaq_fields.hpp`.

  A packet is a big-endian length of two bytes, that of its type and payload, the type and the
  payload.  Numbers of a login are decimal digits, padded with spaces on the left.
-/
import FastMM.Foundation.BigEndian
import FastMM.Foundation.Framing
import Mathlib.Data.List.TakeWhile
set_option autoImplicit false

namespace FastMM.Soup

open Foundation List

abbrev Bytes : Type := List UInt8

/-! ## Fields -/

def kSpace : UInt8 := 32

/-- `put_alpha`; a longer text is cut. -/
def putAlpha (width : Nat) (s : Bytes) : Bytes :=
  s.take width ++ List.replicate (width - s.length) kSpace

/-- `get_alpha_trimmed`. -/
def trimmed (field : Bytes) : Bytes :=
  ((field.reverse.dropWhile (· = kSpace)).reverse).dropWhile (· = kSpace)

/-- The loop of `put_numeric` at position `i`, with the digits behind it. -/
def putDigits : Nat → Nat → Bytes → Option Bytes
  | 0, _, _ => none
  | i + 1, v, behind =>
    let digits := UInt8.ofNat (48 + v % 10) :: behind
    if v / 10 = 0 then some (List.replicate i kSpace ++ digits) else putDigits i (v / 10) digits

def putNumeric (width v : Nat) : Option Bytes := putDigits width v []

/-- One digit of `get_numeric`, which takes no more than 64 bits. -/
def digit (v : Nat) (c : UInt8) : Option Nat :=
  if 48 ≤ c.toNat ∧ c.toNat ≤ 57 then
    let d := c.toNat - 48
    if v > (18446744073709551615 - d) / 10 then none else some (v * 10 + d)
  else none

def getNumeric (field : Bytes) : Option Nat :=
  let field := field.dropWhile (· = kSpace)
  match (field.takeWhile (· ≠ kSpace)).foldlM digit 0 with
  | some v => if (field.dropWhile (· ≠ kSpace)).all (· = kSpace) then some v else none
  | none => none

/-! ## Frames -/

/-- `FrameView`: `kind` is the packet type. -/
structure Frame where
  kind : UInt8
  payload : Bytes
deriving DecidableEq, Repr

def kMaxPayload : Nat := 65534

def kDebug : UInt8 := '+'.toUInt8
def kLoginAccepted : UInt8 := 'A'.toUInt8
def kLoginRejected : UInt8 := 'J'.toUInt8
def kSequencedData : UInt8 := 'S'.toUInt8
def kUnsequencedData : UInt8 := 'U'.toUInt8
def kServerHeartbeat : UInt8 := 'H'.toUInt8
def kEndOfSession : UInt8 := 'Z'.toUInt8
def kLoginRequest : UInt8 := 'L'.toUInt8
def kClientHeartbeat : UInt8 := 'R'.toUInt8
def kLogoutRequest : UInt8 := 'O'.toUInt8

/-- `SoupBinFramer::next`, with the rest of the stream. -/
def nextFrame (stream : Bytes) : Option (Frame × Bytes) :=
  if stream.length < 2 then none
  else
    let len := loadBe (stream.take 2)
    -- A zero length has no type byte.
    if len = 0 then some (⟨0, []⟩, stream.drop 2)
    else if stream.length < 2 + len then none
    else some (⟨stream.getD 2 0, (stream.drop 3).take (len - 1)⟩, stream.drop (2 + len))

def writeHeader (type : UInt8) (payload : Nat) : Option Bytes :=
  if payload > kMaxPayload then none else some (storeBe 2 (payload + 1) ++ [type])

/-- `write_control`, of a packet without payload. -/
def writeControl (type : UInt8) : Bytes := storeBe 2 1 ++ [type]

/-- The bytes of a whole packet. -/
def Frame.bytes (f : Frame) : Bytes := storeBe 2 (f.payload.length + 1) ++ f.kind :: f.payload

/-- A packet whose payload fits. -/
def Frame.Fits (f : Frame) : Prop := f.payload.length ≤ kMaxPayload

/-! ## Logins -/

inductive Version where
  | V300
  | V400
  | V410
deriving DecidableEq, Repr

def writeLoginRequest (username password session : Bytes) (sequence : Nat) (version : Version)
    (heartbeatTimeoutMs : Nat) : Option Bytes :=
  if username.length > 6 ∨ password.length > 10 ∨ session.length > 10 then none
  else
    let names := putAlpha 6 username ++ putAlpha 10 password ++ putAlpha 10 session
    match putNumeric 20 sequence with
    | none => none
    | some seq =>
      if version = .V410 then
        match putNumeric 5 heartbeatTimeoutMs with
        | none => none
        | some ms => some (Frame.bytes ⟨kLoginRequest, names ++ seq ++ ms⟩)
      else some (Frame.bytes ⟨kLoginRequest, names ++ seq⟩)

structure LoginRequestView where
  username : Bytes
  password : Bytes
  session : Bytes
  sequence : Nat
  heartbeatTimeoutMs : Nat
deriving DecidableEq, Repr

def parseLoginRequest (payload : Bytes) : Option LoginRequestView :=
  if payload.length ≠ 46 ∧ payload.length ≠ 51 then none
  else
    match getNumeric ((payload.drop 26).take 20) with
    | none => none
    | some sequence =>
      let view (ms : Nat) : LoginRequestView :=
        ⟨trimmed (payload.take 6), trimmed ((payload.drop 6).take 10),
          trimmed ((payload.drop 16).take 10), sequence, ms⟩
      if payload.length = 51 then
        (getNumeric ((payload.drop 46).take 5)).map fun ms => view (ms % 4294967296)
      else some (view 0)

/-- `write_login_accepted`; both fields are padded on the left. -/
def writeLoginAccepted (session : Bytes) (nextSequence : Nat) : Option Bytes :=
  if session.length > 10 then none
  else
    match putNumeric 20 nextSequence with
    | none => none
    | some seq =>
      some (Frame.bytes
        ⟨kLoginAccepted, List.replicate (10 - session.length) kSpace ++ session ++ seq⟩)

structure LoginAcceptedView where
  session : Bytes
  sequence : Nat
deriving DecidableEq, Repr

def parseLoginAccepted (payload : Bytes) : Option LoginAcceptedView :=
  if payload.length ≠ 30 then none
  else
    (getNumeric ((payload.drop 10).take 20)).map fun sequence =>
      ⟨trimmed (payload.take 10), sequence⟩

def writeLoginRejected (reason : UInt8) : Bytes := Frame.bytes ⟨kLoginRejected, [reason]⟩

def equalIgnoreCase (a b : Bytes) : Bool :=
  let upper (c : UInt8) : UInt8 := if 97 ≤ c.toNat ∧ c.toNat ≤ 122 then c - 32 else c
  a.map upper = b.map upper

/-! ## What was built is taken apart again -/

theorem length_bytes (f : Frame) : f.bytes.length = 3 + f.payload.length := by
  simp [Frame.bytes]
  omega

theorem nextFrame_bytes (f : Frame) (rest : Bytes) (hf : f.Fits) :
    nextFrame (f.bytes ++ rest) = some (f, rest) := by
  have hlen : loadBe ((f.bytes ++ rest).take 2) = f.payload.length + 1 := by
    have htake : (f.bytes ++ rest).take 2 = storeBe 2 (f.payload.length + 1) := by
      unfold Frame.bytes
      rw [append_assoc, take_left' (length_storeBe 2 _)]
    rw [htake, loadBe_storeBe]
    unfold Frame.Fits kMaxPayload at hf
    omega
  have hsize : (f.bytes ++ rest).length = 3 + f.payload.length + rest.length := by
    rw [length_append, length_bytes]
  obtain ⟨b₀, b₁, hhdr⟩ : ∃ b₀ b₁, storeBe 2 (f.payload.length + 1) = [b₀, b₁] := ⟨_, _, rfl⟩
  unfold nextFrame
  rw [if_neg (by omega)]
  rw [hlen, if_neg (by omega), if_neg (by omega)]
  unfold Frame.bytes
  rw [hhdr]
  simp [Nat.add_comm 2 (f.payload.length + 1)]

theorem nextFrame_short {f : Frame} {l : Bytes} (hf : f.Fits) (hl : l <+: f.bytes)
    (hne : l ≠ f.bytes) : nextFrame l = none := by
  obtain ⟨rest, hrest⟩ := hl
  have hpos : rest ≠ [] := fun he => hne (by rw [← hrest, he, append_nil])
  have hlt : l.length < f.bytes.length := by
    rw [← hrest, length_append]
    exact Nat.lt_add_of_pos_right (length_pos_of_ne_nil hpos)
  rw [length_bytes] at hlt
  unfold nextFrame
  by_cases h2 : l.length < 2
  · rw [if_pos h2]
  have htake : l.take 2 = storeBe 2 (f.payload.length + 1) := by
    have happ : f.bytes.take 2 = l.take 2 := by
      rw [← hrest, take_append_of_le_length (by omega)]
    rw [← happ]
    unfold Frame.bytes
    rw [take_left' (length_storeBe 2 _)]
  have hload : loadBe (l.take 2) = f.payload.length + 1 := by
    rw [htake, loadBe_storeBe]
    unfold Frame.Fits kMaxPayload at hf
    omega
  rw [if_neg h2]
  rw [hload, if_neg (by omega), if_pos (by omega)]

theorem framing : Framing Frame.bytes nextFrame Frame.Fits where
  whole := nextFrame_bytes
  short := fun _ _ hf hl hne => nextFrame_short hf hl hne
  empty := rfl

/-! ## Numbers of a login -/

/-- The number some digits stand for. -/
def digitsValue (ds : Bytes) : Nat := ds.foldl (fun v c => v * 10 + (c.toNat - 48)) 0

theorem le_foldl_digits (ds : Bytes) (v : Nat) :
    v ≤ ds.foldl (fun v c => v * 10 + (c.toNat - 48)) v := by
  induction ds generalizing v with
  | nil => exact Nat.le_refl v
  | cons c ds ih =>
    rw [foldl_cons]
    have hle := ih (v * 10 + (c.toNat - 48))
    omega

/-- Digits whose number has 64 bits are read. -/
theorem foldlM_digit {ds : Bytes} (hds : ∀ c ∈ ds, 48 ≤ c.toNat ∧ c.toNat ≤ 57) {v : Nat}
    (hv : ds.foldl (fun v c => v * 10 + (c.toNat - 48)) v ≤ 18446744073709551615) :
    ds.foldlM digit v = some (ds.foldl (fun v c => v * 10 + (c.toNat - 48)) v) := by
  induction ds generalizing v with
  | nil => rfl
  | cons c ds ih =>
    have hc := hds c mem_cons_self
    rw [foldl_cons] at hv ⊢
    have hle := le_foldl_digits ds (v * 10 + (c.toNat - 48))
    have hdigit : digit v c = some (v * 10 + (c.toNat - 48)) := by
      unfold digit
      rw [if_pos hc]
      rw [if_neg (by omega)]
    rw [foldlM_cons, hdigit, Option.bind_eq_bind, Option.bind_some]
    exact ih (fun x hx => hds x (mem_cons_of_mem c hx)) hv

/-- What the loop writes: spaces, and then the digits of the number. -/
theorem putDigits_eq {i v : Nat} {behind l : Bytes} (h : putDigits i v behind = some l) :
    l.length = i + behind.length ∧ ∃ j ds, l = List.replicate j kSpace ++ (ds ++ behind) ∧
      ds ≠ [] ∧ (∀ c ∈ ds, 48 ≤ c.toNat ∧ c.toNat ≤ 57) ∧ digitsValue ds = v := by
  induction i generalizing v behind with
  | zero => exact absurd h (by simp [putDigits])
  | succ i ih =>
    have hbyte : (UInt8.ofNat (48 + v % 10)).toNat = 48 + v % 10 := by
      rw [UInt8.toNat_ofNat']
      omega
    unfold putDigits at h
    dsimp only at h
    split_ifs at h with hlast
    · obtain rfl := Option.some.inj h
      refine ⟨by simp; omega, i, [UInt8.ofNat (48 + v % 10)], rfl, by simp, ?_, ?_⟩
      · intro c hc
        rw [mem_singleton.mp hc, hbyte]
        omega
      · unfold digitsValue
        rw [foldl_cons, foldl_nil, hbyte]
        omega
    · obtain ⟨hlen, j, ds, hl, -, hds, hval⟩ := ih h
      refine ⟨by rw [hlen, length_cons]; omega, j, ds ++ [UInt8.ofNat (48 + v % 10)], ?_,
        by simp, ?_, ?_⟩
      · rw [hl, append_assoc]
        rfl
      · intro c hc
        rcases mem_append.mp hc with hc | hc
        · exact hds c hc
        · rw [mem_singleton.mp hc, hbyte]
          omega
      · unfold digitsValue at hval ⊢
        rw [foldl_append, hval, foldl_cons, foldl_nil, hbyte]
        omega

section

variable {width v : Nat} {l : Bytes} (h : putNumeric width v = some l)
include h

theorem length_putNumeric :
    l.length = width := (putDigits_eq h).1

/-- A number written is read back. -/
theorem getNumeric_putNumeric
    (hv : v ≤ 18446744073709551615) : getNumeric l = some v := by
  obtain ⟨-, j, ds, rfl, hne, hds, rfl⟩ := putDigits_eq h
  rw [append_nil]
  have hspace : ∀ c ∈ ds, c ≠ kSpace := by
    intro c hc he
    have hc' := (hds c hc).1
    rw [he] at hc'
    exact absurd hc' (by decide)
  have hskip : (List.replicate j kSpace ++ ds).dropWhile (· = kSpace) = ds := by
    rw [dropWhile_append_of_pos fun c hc => by simp [eq_of_mem_replicate hc]]
    cases ds with
    | nil => exact absurd rfl hne
    | cons c ds =>
      rw [dropWhile_cons_of_neg]
      simpa using hspace c mem_cons_self
  have htake : ds.takeWhile (· ≠ kSpace) = ds :=
    takeWhile_eq_self_iff.mpr fun c hc => by simpa using hspace c hc
  have hdrop : ds.dropWhile (· ≠ kSpace) = [] :=
    dropWhile_eq_nil_iff.mpr fun c hc => by simpa using hspace c hc
  unfold getNumeric
  dsimp only
  rw [hskip, htake, hdrop, foldlM_digit hds hv]
  rfl

end

theorem length_putAlpha (width : Nat) (s : Bytes) : (putAlpha width s).length = width := by
  unfold putAlpha
  rw [length_append, length_take, length_replicate]
  omega

/-- A Login Request is one packet, and what it parses to asks for the sequence number. -/
theorem writeLoginRequest_eq {username password session l : Bytes} {sequence : Nat}
    {version : Version} {ms : Nat}
    (h : writeLoginRequest username password session sequence version ms = some l)
    (hseq : sequence ≤ 18446744073709551615) :
    ∃ f : Frame, l = f.bytes ∧ f.kind = kLoginRequest ∧ f.Fits ∧
      ∀ v, parseLoginRequest f.payload = some v → v.sequence = sequence := by
  have hfield : ∀ (seq tail : Bytes), putNumeric 20 sequence = some seq → tail.length ≤ 5 →
      let payload := putAlpha 6 username ++ putAlpha 10 password ++ putAlpha 10 session ++ seq ++
        tail
      payload.length ≤ kMaxPayload ∧
        ∀ v, parseLoginRequest payload = some v → v.sequence = sequence := by
    intro seq tail hput htail payload
    have hnames : (putAlpha 6 username ++ putAlpha 10 password ++ putAlpha 10 session).length =
        26 := by
      simp only [length_append, length_putAlpha]
    have hlen := length_putNumeric hput
    have hdrop : (payload.drop 26).take 20 = seq := by
      rw [show payload = _ ++ seq ++ tail from rfl, append_assoc, drop_left' hnames,
        take_left' hlen]
    refine ⟨?_, fun v hv => ?_⟩
    · rw [show payload = _ ++ seq ++ tail from rfl, length_append, length_append, hnames, hlen]
      unfold kMaxPayload
      omega
    unfold parseLoginRequest at hv
    rw [hdrop, getNumeric_putNumeric hput hseq] at hv
    dsimp only at hv
    split at hv
    · nomatch hv
    split at hv
    · obtain ⟨_, _, rfl⟩ := Option.map_eq_some_iff.mp hv
      rfl
    · rw [← Option.some.inj hv]
  unfold writeLoginRequest at h
  split at h
  · nomatch h
  cases hput : putNumeric 20 sequence with
  | none => simp [hput] at h
  | some seq =>
    simp only [hput] at h
    split at h
    · cases hms : putNumeric 5 ms with
      | none => simp [hms] at h
      | some tail =>
        simp only [hms] at h
        obtain ⟨hfits, hparse⟩ := hfield seq tail hput (le_of_eq (length_putNumeric hms))
        exact ⟨_, (Option.some.inj h).symm, rfl, hfits, hparse⟩
    · obtain ⟨hfits, hparse⟩ := hfield seq [] hput (Nat.zero_le 5)
      rw [append_nil] at hfits hparse
      exact ⟨_, (Option.some.inj h).symm, rfl, hfits, hparse⟩

/-- A Login Accepted is one packet, and gives the sequence number. -/
theorem writeLoginAccepted_eq {session l : Bytes} {sequence : Nat}
    (h : writeLoginAccepted session sequence = some l) (hseq : sequence ≤ 18446744073709551615) :
    ∃ f : Frame, l = f.bytes ∧ f.kind = kLoginAccepted ∧ f.Fits ∧
      ∀ v, parseLoginAccepted f.payload = some v → v.sequence = sequence := by
  unfold writeLoginAccepted at h
  split at h
  · nomatch h
  rename_i hsession
  cases hput : putNumeric 20 sequence with
  | none => simp [hput] at h
  | some seq =>
    simp only [hput] at h
    have hname : (List.replicate (10 - session.length) kSpace ++ session).length = 10 := by
      rw [length_append, length_replicate]
      omega
    have hlen := length_putNumeric hput
    refine ⟨_, (Option.some.inj h).symm, rfl, ?_, fun v hv => ?_⟩
    · show (_ ++ session ++ seq).length ≤ kMaxPayload
      rw [length_append, hname, hlen]
      decide
    unfold parseLoginAccepted at hv
    dsimp only at hv
    rw [drop_left' hname, take_of_length_le (le_of_eq hlen),
      getNumeric_putNumeric hput hseq] at hv
    split at hv
    · nomatch hv
    · rw [← Option.some.inj hv]

end FastMM.Soup
