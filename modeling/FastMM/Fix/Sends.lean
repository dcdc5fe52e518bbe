/-
  Fix/Sends.lean --- the messages that a session transmits.

  A message is whole where it fits the buffer, and a Reject that names a known message always does.
-/
import FastMM.Fix.Session
set_option autoImplicit false

namespace FastMM.Fix

open Foundation List

/-! ## Numbers and sizes -/

/-- Numbers from the wire, as they are stored. -/
theorem toNat_ofInt {v : Int} (h0 : 0 ≤ v) (hlt : v < 10 ^ 18) :
    ((UInt64.ofInt v).toNat : Int) = v := by
  unfold UInt64.ofInt
  rw [UInt64.toNat_ofNat', Nat.mod_eq_of_lt]
  · omega
  · omega

theorem toNat_succ {t : UInt64} (h : (t.toNat : Int) < 10 ^ 18) : (t + 1).toNat = t.toNat + 1 := by
  rw [UInt64.toNat_add]
  have hone : (1 : UInt64).toNat = 1 := rfl
  rw [hone]
  omega

theorem length_headerFields {sender target : Bytes} {seq : Nat} (sendingNs : Int)
    (hsender : sender.length ≤ 32) (htarget : target.length ≤ 32) (hseq : seq < 2 ^ 64) :
    (fieldsBytes (headerFields sender target seq sendingNs false 0)).length ≤ 121 := by
  have hdigits : countDigits seq ≤ 20 := countDigits_le (by decide) (by omega)
  have htags : countDigits Tag.kSenderCompID = 2 ∧ countDigits Tag.kTargetCompID = 2 ∧
      countDigits Tag.kMsgSeqNum = 2 ∧ countDigits Tag.kSendingTime = 2 := ⟨rfl, rfl, rfl, rfl⟩
  have hnil : (fieldsBytes []).length = 0 := rfl
  unfold headerFields
  simp only [Bool.false_eq_true, if_false, nil_append, cons_append, fieldsBytes_cons,
    length_append, length_fieldBytes, length_decimalBytes, length_formatUtcTimestamp, hnil]
  unfold kUtcTimestampMillisChars
  omega

namespace FixSession

variable {s : FixSession} {b : FixBuilder} {beginString body : Bytes}

/-! ## Transmission -/

section

variable (h : Builds b kMaxMessageBytes beginString body)
variable (hfit : (wire beginString body).length ≤ kMaxMessageBytes)
include h hfit

theorem finishAdmin_sent :
    (s.finishAdmin b).sent = s.sent ++ [wire beginString body] := by
  rcases h.finish with ⟨-, hn, hbuf⟩ | ⟨hlong, -⟩
  · unfold finishAdmin
    dsimp only
    rw [if_neg (by rw [hn, length_wire]; omega), hn, hbuf, take_length]
    rfl
  · exact absurd hfit (Nat.not_le.mpr hlong)

theorem transmitBuilt_sent :
    (s.transmitBuilt b).sent = s.sent ++ [wire beginString body] := by
  rcases h.finish with ⟨-, hn, hbuf⟩ | ⟨hlong, -⟩
  · unfold transmitBuilt
    dsimp only
    rw [if_neg (by rw [hn, length_wire]; omega), hn, hbuf, take_length]
    rfl
  · exact absurd hfit (Nat.not_le.mpr hlong)

end

/-- The header of a message that is sent now. -/
def adminFields (s : FixSession) (msgType : Bytes) : List (Nat × Bytes) :=
  (Tag.kMsgType, msgType) :: headerFields s.cfg.senderCompId.bytes s.cfg.targetCompId.bytes
    s.nextSenderSeq.toNat s.now false 0

theorem admin_builds (s : FixSession) (msgType : Bytes) :
    Builds (s.admin msgType).1 kMaxMessageBytes s.cfg.beginString.bytes
      (fieldsBytes (s.adminFields msgType)) := Builds.beginHeader _ _ _ _ _ _ _ _ _

theorem length_adminFields (s : FixSession) (msgType : Bytes) :
    (fieldsBytes (s.adminFields msgType)).length ≤ 125 + msgType.length := by
  have hheader := length_headerFields s.now s.cfg.senderCompId.length_le
    s.cfg.targetCompId.length_le s.nextSenderSeq.toNat_lt
  have htag : countDigits Tag.kMsgType = 2 := rfl
  unfold adminFields
  rw [fieldsBytes_cons, length_append, length_fieldBytes]
  dsimp only
  omega

/-! ## Rejects -/

/-- What a Reject says of a message. -/
def rejectFields (refSeq : UInt64) (refTag : Nat) (refMsgType : Bytes) (reason : Int)
    (text : Bytes) : List (Nat × Bytes) :=
  [(Tag.kRefSeqNum, decimalBytes refSeq.toNat), (Tag.kRefTagID, decimalBytes refTag),
    (Tag.kRefMsgType, refMsgType), (Tag.kSessionRejectReason, intBytes reason), (Tag.kText, text)]

/-- A Reject that is sent now. -/
def rejectBytes (s : FixSession) (refSeq : UInt64) (refTag : Nat) (refMsgType : Bytes)
    (reason : Int) (text : Bytes) : Bytes :=
  wire s.cfg.beginString.bytes (fieldsBytes (s.adminFields MsgType.kReject ++
    rejectFields refSeq refTag refMsgType reason text))

theorem sendReject_sent (s : FixSession) (refSeq : UInt64) (refTag : Nat) (refMsgType : Bytes)
    (reason : Int) (text : Bytes) (htag : refTag ≠ 0) (htype : refMsgType ≠ []) (htext : text ≠ [])
    (htagLen : countDigits refTag ≤ 9) (htypeLen : refMsgType.length ≤ 9)
    (hreasonLen : (intBytes reason).length ≤ 20) (htextLen : text.length ≤ 96) :
    (s.sendReject refSeq refTag refMsgType reason text).sent =
      s.sent ++ [s.rejectBytes refSeq refTag refMsgType reason text] := by
  have hbuilds := ((((s.admin_builds MsgType.kReject).fieldUint Tag.kRefSeqNum
    refSeq.toNat).fieldUint
    Tag.kRefTagID refTag).field Tag.kRefMsgType refMsgType).fieldInt Tag.kSessionRejectReason reason
      |>.field Tag.kText text
  have hbody : fieldsBytes (s.adminFields MsgType.kReject ++
      rejectFields refSeq refTag refMsgType reason text) =
        fieldsBytes (s.adminFields MsgType.kReject) ++
          fieldBytes Tag.kRefSeqNum (decimalBytes refSeq.toNat) ++
          fieldBytes Tag.kRefTagID (decimalBytes refTag) ++ fieldBytes Tag.kRefMsgType refMsgType ++
          fieldBytes Tag.kSessionRejectReason (intBytes reason) ++ fieldBytes Tag.kText text := by
    unfold rejectFields
    rw [fieldsBytes_append, fieldsBytes_cons, fieldsBytes_cons, fieldsBytes_cons, fieldsBytes_cons,
      fieldsBytes_cons]
    have hnil : fieldsBytes [] = [] := rfl
    rw [hnil]
    simp only [append_assoc, append_nil]
  have hsize : (fieldsBytes (s.adminFields MsgType.kReject ++
      rejectFields refSeq refTag refMsgType reason text)).length ≤ 999 := by
    have hadmin := s.length_adminFields MsgType.kReject
    have hone : MsgType.kReject.length = 1 := rfl
    have hseq : countDigits refSeq.toNat ≤ 20 :=
      countDigits_le (by decide) (refSeq.toNat_lt.trans (by decide))
    have htags : countDigits Tag.kRefSeqNum = 2 ∧ countDigits Tag.kRefTagID = 3 ∧
        countDigits Tag.kRefMsgType = 3 ∧ countDigits Tag.kSessionRejectReason = 3 ∧
        countDigits Tag.kText = 2 := ⟨rfl, rfl, rfl, rfl, rfl⟩
    rw [hbody]
    simp only [length_append, length_fieldBytes, length_decimalBytes]
    omega
  have hfit : (wire s.cfg.beginString.bytes (fieldsBytes (s.adminFields MsgType.kReject ++
      rejectFields refSeq refTag refMsgType reason text))).length ≤ kMaxMessageBytes := by
    have hbegin := s.cfg.beginString.length_le
    have hdigits : countDigits (fieldsBytes (s.adminFields MsgType.kReject ++
        rejectFields refSeq refTag refMsgType reason text)).length ≤ 3 :=
      countDigits_le (by decide) (by omega)
    rw [length_wire]
    unfold kMaxMessageBytes
    omega
  rw [← hbody] at hbuilds
  have hsent := finishAdmin_sent (s := s.ticked) hbuilds hfit
  unfold sendReject rejectBytes
  dsimp only
  rw [if_pos htag, if_pos htype, if_pos htext]
  exact hsent

end FixSession

end FastMM.Fix
