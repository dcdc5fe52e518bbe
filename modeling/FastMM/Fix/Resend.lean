/-
  Fix/Resend.lean --- a request for messages is answered from the store.

  The answers tile the range: each stored message is sent again, and each run of numbers without one
  is filled by one GapFill.  The place in the store is always that of the number that comes next.
-/
import FastMM.Fix.Sends
set_option autoImplicit false

namespace FastMM.Fix

open Foundation List

/-! ## Answers -/

/-- What a number is answered with. -/
inductive Answer where
  | resend (e : Stored)
  | gapFill (cur next : UInt64)
  deriving DecidableEq, Repr

/-- The standard header of a message that is sent again. -/
def againFields (cfg : FixSessionConfig) (msgType : Bytes) (seq : UInt64)
    (now origSendingNs : Int) : List (Nat × Bytes) :=
  (Tag.kMsgType, msgType) :: headerFields cfg.senderCompId.bytes
    cfg.targetCompId.bytes seq.toNat now true origSendingNs

namespace Answer

/-- An answer as it is sent. -/
def bytes (cfg : FixSessionConfig) (now : Int) : Answer → Bytes
  | resend e =>
    wire cfg.beginString.bytes (fieldsBytes (againFields cfg e.msgType e.seq now e.sendingNs) ++
      e.body)
  | gapFill cur next =>
    wire cfg.beginString.bytes (fieldsBytes (againFields cfg MsgType.kSequenceReset cur now now ++
      [(Tag.kGapFillFlag, [89]), (Tag.kNewSeqNo, decimalBytes next.toNat)]))

/-- The message that is sent again. -/
def stored? : Answer → Option Stored
  | resend e => some e
  | gapFill _ _ => none

end Answer

/-- Answers tile the numbers from `cur` to `stop`. -/
inductive Tiles (entries : List Stored) (stop : Nat) : Nat → List Answer → Prop where
  | done {cur : Nat} : stop < cur → Tiles entries stop cur []
  | resend {e : Stored} {answers : List Answer} : e ∈ entries → e.seq.toNat ≤ stop →
      Tiles entries stop (e.seq.toNat + 1) answers →
      Tiles entries stop e.seq.toNat (.resend e :: answers)
  | gapFill {cur next : UInt64} {answers : List Answer} :
    cur.toNat ≤ stop → cur.toNat < next.toNat →
      (∀ e ∈ entries, ¬ (cur.toNat ≤ e.seq.toNat ∧ e.seq.toNat < next.toNat)) →
      (next.toNat = stop + 1 ∨ next.toNat ≤ stop ∧ ∃ e ∈ entries, e.seq = next) →
      Tiles entries stop next.toNat answers →
      Tiles entries stop cur.toNat (.gapFill cur next :: answers)

/-- The stored messages with a number of a range. -/
def inRange (entries : List Stored) (first last : Nat) : List Stored :=
  entries.filter fun e => decide (first ≤ e.seq.toNat ∧ e.seq.toNat ≤ last)

/-- The stored messages of a range are sent again, each once and in order. -/
theorem Tiles.stored {entries : List Stored} {stop cur : Nat} {answers : List Answer}
    (hsorted : Ascending (fun e : Stored => e.seq.toNat) entries)
    (h : Tiles entries stop cur answers) :
    answers.filterMap Answer.stored? = inRange entries cur stop := by
  induction h with
  | done hlt =>
    refine (filter_eq_nil_iff.mpr fun e _ hin => ?_).symm
    have hrange := of_decide_eq_true hin
    omega
  | @resend e answers he hle _ ih =>
    obtain ⟨a, b, rfl⟩ := append_of_mem he
    obtain ⟨-, hright, hcross⟩ := pairwise_append.mp hsorted
    have hnone : ∀ first, e.seq.toNat ≤ first → inRange a first stop = [] := by
      intro first hfirst
      refine filter_eq_nil_iff.mpr fun x hx hin => ?_
      have hlt := hcross x hx e mem_cons_self
      have hrange := of_decide_eq_true hin
      dsimp only at hlt
      omega
    have hsame : inRange b (e.seq.toNat + 1) stop = inRange b e.seq.toNat stop := by
      refine filter_congr fun x hx => decide_eq_decide.mpr ?_
      have hlt := (pairwise_cons.mp hright).1 x hx
      dsimp only at hlt
      omega
    have hsplit : ∀ first, inRange (a ++ e :: b) first stop =
        inRange a first stop ++ inRange (e :: b) first stop := fun _ => filter_append ..
    have hkept : inRange (e :: b) e.seq.toNat stop = e :: inRange b e.seq.toNat stop :=
      filter_cons_of_pos (decide_eq_true ⟨Nat.le_refl _, hle⟩)
    have hskipped : inRange (e :: b) (e.seq.toNat + 1) stop = inRange b (e.seq.toNat + 1) stop :=
      filter_cons_of_neg (by rw [decide_eq_true_iff]; omega)
    rw [hsplit, hnone _ (Nat.le_refl _), nil_append, hkept, ← hsame, ← hskipped,
      ← nil_append (inRange (e :: b) (e.seq.toNat + 1) stop), ← hnone _ (Nat.le_succ _), ← hsplit,
      ← ih]
    rfl
  | @gapFill cur next answers hle hlt hnone _ _ ih =>
    rw [filterMap_cons_none rfl, ih]
    refine filter_congr fun e he => decide_eq_decide.mpr ?_
    have hout := hnone e he
    omega

namespace FixSession

variable {s : FixSession} {stop cur : UInt64} {now : Int}

/-! ## The loop -/

theorem transmitBuilt_rest (s : FixSession) (b : FixBuilder) :
    (s.transmitBuilt b).store = s.store ∧ (s.transmitBuilt b).cfg = s.cfg := by
  unfold transmitBuilt
  dsimp only
  split <;> exact ⟨rfl, rfl⟩

/-- A stored message that fits is sent as it is. -/
theorem transmitBuilt_resend {e : Stored}
    (hfit : ((Answer.resend e).bytes s.cfg now).length ≤ kMaxMessageBytes) :
    (s.transmitBuilt (s.resendBuilder now e)).sent = s.sent ++
      [(Answer.resend e).bytes s.cfg now] :=
  transmitBuilt_sent ((Builds.beginHeader { cap := kMaxMessageBytes } e.msgType
    s.cfg.senderCompId.bytes s.cfg.targetCompId.bytes e.seq.toNat now true e.sendingNs
    s.cfg.beginString.bytes).put e.body) hfit

theorem length_gapFill (cfg : FixSessionConfig) (now : Int) (cur next : UInt64) :
    ((Answer.gapFill cur next).bytes cfg now).length ≤ kMaxMessageBytes := by
  have hsender := cfg.senderCompId.length_le
  have htarget := cfg.targetCompId.length_le
  have hbegin := cfg.beginString.length_le
  have hdigits : ∀ n : UInt64, countDigits n.toNat ≤ 20 :=
    fun n => countDigits_le (by decide) (n.toNat_lt.trans (by decide))
  have hcur := hdigits cur
  have hnext := hdigits next
  have htags : countDigits Tag.kMsgType = 2 ∧ countDigits Tag.kSenderCompID = 2 ∧
      countDigits Tag.kTargetCompID = 2 ∧ countDigits Tag.kMsgSeqNum = 2 ∧
      countDigits Tag.kPossDupFlag = 2 ∧ countDigits Tag.kSendingTime = 2 ∧
      countDigits Tag.kOrigSendingTime = 3 ∧ countDigits Tag.kGapFillFlag = 3 ∧
      countDigits Tag.kNewSeqNo = 2 := ⟨rfl, rfl, rfl, rfl, rfl, rfl, rfl, rfl, rfl⟩
  have hnil : (fieldsBytes []).length = 0 := rfl
  have hone : MsgType.kSequenceReset.length = 1 := rfl
  have hflag : ∀ c : UInt8, [c].length = 1 := fun _ => rfl
  have hbody : (fieldsBytes (againFields cfg MsgType.kSequenceReset cur now now ++
      [(Tag.kGapFillFlag, [89]), (Tag.kNewSeqNo, decimalBytes next.toNat)])).length ≤ 999 := by
    unfold againFields headerFields
    simp only [if_true, nil_append, cons_append, fieldsBytes_cons, length_append,
      length_fieldBytes, length_decimalBytes, length_formatUtcTimestamp, hnil, hone, hflag]
    unfold kUtcTimestampMillisChars
    omega
  have hsmall : countDigits (fieldsBytes (againFields cfg MsgType.kSequenceReset cur now now ++
      [(Tag.kGapFillFlag, [89]), (Tag.kNewSeqNo, decimalBytes next.toNat)])).length ≤ 3 :=
    countDigits_le (by decide) (by omega)
  unfold Answer.bytes
  rw [length_wire]
  unfold kMaxMessageBytes
  omega

/-- A GapFill always fits. -/
theorem transmitBuilt_gapFill (s : FixSession) (now : Int) (cur next : UInt64) :
    (s.transmitBuilt (s.gapFillBuilder now cur next)).sent =
      s.sent ++ [(Answer.gapFill cur next).bytes s.cfg now] := by
  have hbuilds := ((Builds.beginHeader { cap := kMaxMessageBytes } MsgType.kSequenceReset
    s.cfg.senderCompId.bytes s.cfg.targetCompId.bytes cur.toNat now true now
    s.cfg.beginString.bytes).fieldChar Tag.kGapFillFlag 89).fieldUint Tag.kNewSeqNo next.toNat
  have hbody : fieldsBytes (againFields s.cfg MsgType.kSequenceReset cur now now ++
      [(Tag.kGapFillFlag, [89]), (Tag.kNewSeqNo, decimalBytes next.toNat)]) =
        fieldsBytes (againFields s.cfg MsgType.kSequenceReset cur now now) ++
          fieldBytes Tag.kGapFillFlag [89] ++
            fieldBytes Tag.kNewSeqNo (decimalBytes next.toNat) := by
    have hnil : fieldsBytes [] = [] := rfl
    rw [fieldsBytes_append, fieldsBytes_cons, fieldsBytes_cons, hnil, append_nil, append_assoc]
  have hfit := length_gapFill s.cfg now cur next
  rw [Answer.bytes, hbody] at hfit ⊢
  exact transmitBuilt_sent hbuilds hfit

/-- The answers of a range that a loop gives, and what it sends of them. -/
def Serves (s s' : FixSession) (entries : List Stored) (stop cur : Nat) (now : Int) : Prop :=
  ∃ answers, Tiles entries stop cur answers ∧
    ((∀ e ∈ inRange entries cur stop,
      ((Answer.resend e).bytes s.cfg now).length ≤ kMaxMessageBytes) →
        s'.sent = s.sent ++ answers.map (Answer.bytes s.cfg now))

/-- The turns that a loop has left are enough: two for each entry, one less where the next number is
stored or past the end. -/
def Enough (s : FixSession) (stop : UInt64) (fuel idx : Nat) (cur : UInt64) : Prop :=
  2 * (s.store.entries.length - idx) + 2 ≤ fuel ∨
    2 * (s.store.entries.length - idx) + 1 ≤ fuel ∧
      (stop < cur ∨ ∃ e, s.store.entries[idx]? = some e ∧ e.seq = cur)

theorem inRange_mono {entries : List Stored} {a b stop : Nat} (h : a ≤ b) {e : Stored}
    (he : e ∈ inRange entries b stop) : e ∈ inRange entries a stop := by
  obtain ⟨hin, hrange⟩ := mem_filter.mp he
  have hle := of_decide_eq_true hrange
  exact mem_filter.mpr ⟨hin, decide_eq_true (by omega)⟩

theorem serveLoop_serves (s : FixSession) (fuel idx : Nat) (cur : UInt64) (now : Int)
    (hstop : stop.toNat + 1 < 2 ^ 64)
    (hplace : Place (fun e : Stored => e.seq.toNat) s.store.entries cur.toNat idx)
    (hfuel : Enough s stop fuel idx cur) :
    ∃ s', serveLoop stop now fuel idx cur s = some s' ∧
      Serves s s' s.store.entries stop.toNat cur.toNat now := by
  have hone : (1 : UInt64).toNat = 1 := rfl
  have hnext : (stop + 1).toNat = stop.toNat + 1 := by
    rw [UInt64.toNat_add, hone, Nat.mod_eq_of_lt hstop]
  induction fuel generalizing idx cur s with
  | zero => rcases hfuel with hle | ⟨hle, -⟩ <;> omega
  | succ fuel ih =>
    rw [serveLoop]
    by_cases hle : cur ≤ stop
    · have hleNat := UInt64.le_iff_toNat_le.mp hle
      rw [if_pos hle]
      -- what a GapFill to `next` leaves to do
      have hgap : ∀ next : UInt64, cur.toNat < next.toNat → next.toNat ≤ stop.toNat + 1 →
          (∀ e ∈ s.store.entries, ¬ (cur.toNat ≤ e.seq.toNat ∧ e.seq.toNat < next.toNat)) →
          (next.toNat = stop.toNat + 1 ∨
            next.toNat ≤ stop.toNat ∧ ∃ e ∈ s.store.entries, e.seq = next) →
          Place (fun e : Stored => e.seq.toNat) s.store.entries next.toNat idx →
          Enough s stop fuel idx next →
          ∃ s', serveLoop stop now fuel idx next (s.transmitBuilt (s.gapFillBuilder now cur next)) =
            some s' ∧ Serves s s' s.store.entries stop.toNat cur.toNat now := by
        intro next hlt hbound hnone hend hplace' hfuel'
        obtain ⟨hstore, hcfg⟩ := s.transmitBuilt_rest (s.gapFillBuilder now cur next)
        obtain ⟨s', hs', answers, htiles, hsent⟩ := ih
          (s.transmitBuilt (s.gapFillBuilder now cur next)) idx next (by rw [hstore]; exact hplace')
          (by unfold Enough at hfuel' ⊢; rw [hstore]; exact hfuel')
        rw [hstore] at htiles hsent
        refine ⟨s', hs', .gapFill cur next :: answers, .gapFill hleNat hlt hnone hend htiles,
          fun hfit => ?_⟩
        rw [hcfg] at hsent
        rw [hsent fun e he => hfit e (inRange_mono hlt.le he), transmitBuilt_gapFill, map_cons,
          append_assoc, singleton_append]
      cases hentry : s.store.entries[idx]? with
      | some e =>
        have hmem := mem_of_getElem? hentry
        have hidx := (List.getElem?_eq_some_iff.mp hentry).1
        have habove : cur.toNat ≤ e.seq.toNat := hplace.le_at hentry
        dsimp only
        by_cases hhere : e.seq = cur
        · rw [if_pos hhere]
          obtain ⟨hstore, hcfg⟩ := s.transmitBuilt_rest (s.resendBuilder now e)
          have hcur : (cur + 1).toNat = e.seq.toNat + 1 := by
            rw [UInt64.toNat_add, hone, ← hhere, Nat.mod_eq_of_lt]
            rw [hhere]
            omega
          have hplace' : Place (fun e : Stored => e.seq.toNat) s.store.entries (cur + 1).toNat
              (idx + 1) := by
            rw [hcur]
            refine Place.of_index hidx (fun j x hj hlt => ?_) (fun j x hj hge => ?_)
            · rcases Nat.lt_or_eq_of_le (Nat.le_of_lt_succ hlt) with hbefore | rfl
              · exact Nat.lt_succ_of_lt (s.store.sorted.lt_of_lt hj hentry hbefore)
              · rw [Option.some.inj (hj.symm.trans hentry)]
                exact Nat.lt_succ_self _
            · exact s.store.sorted.lt_of_lt hentry hj hge
          have hfuel' : Enough s stop fuel (idx + 1) (cur + 1) := by
            refine .inl ?_
            rcases hfuel with hmany | ⟨hmany, -⟩ <;> omega
          obtain ⟨s', hs', answers, htiles, hsent⟩ := ih
            (s.transmitBuilt (s.resendBuilder now e)) (idx + 1) (cur + 1)
              (by rw [hstore]; exact hplace')
            (by unfold Enough at hfuel' ⊢; rw [hstore]; exact hfuel')
          rw [hstore, hcur] at htiles hsent
          rw [← hhere] at hleNat ⊢
          refine ⟨s', hhere ▸ hs', .resend e :: answers, .resend hmem hleNat htiles, fun hfit => ?_⟩
          have hself : e ∈ inRange s.store.entries e.seq.toNat stop.toNat :=
            mem_filter.mpr ⟨hmem, decide_eq_true ⟨Nat.le_refl _, hleNat⟩⟩
          rw [hcfg] at hsent
          rw [hsent fun x hx => hfit x (inRange_mono (Nat.le_succ _) hx),
            transmitBuilt_resend (hfit e hself), map_cons, append_assoc,
            singleton_append]
        · rw [if_neg hhere]
          have hless : cur.toNat < e.seq.toNat := by
            refine Nat.lt_of_le_of_ne habove fun he => hhere (UInt64.toNat_inj.mp he.symm)
          have hmany : 2 * (s.store.entries.length - idx) + 2 ≤ fuel + 1 := by
            rcases hfuel with hmany | ⟨-, hdone | ⟨x, hx, hat⟩⟩
            · exact hmany
            · exact absurd hle (UInt64.not_le.mpr hdone)
            · rw [hentry] at hx
              exact absurd (Option.some.inj hx ▸ hat) hhere
          have hbetween := fun x hx => hplace.not_between s.store.sorted hentry (x := x) hx
          by_cases hin : e.seq ≤ stop
          · have hinNat := UInt64.le_iff_toNat_le.mp hin
            rw [if_pos hin]
            exact hgap e.seq hless (by omega) hbetween (.inr ⟨hinNat, e, hmem, rfl⟩)
              (hplace.of_le s.store.sorted hentry habove (Nat.le_refl _))
                (.inr ⟨by omega, .inr ⟨e, hentry, rfl⟩⟩)
          · have hout := UInt64.lt_iff_toNat_lt.mp (UInt64.not_le.mp hin)
            rw [if_neg hin]
            refine hgap (stop + 1) (by omega) (by omega) (fun x hx hx' => ?_) (.inl hnext)
              (hplace.of_le s.store.sorted hentry (by omega) (by omega))
              (.inr ⟨by omega, .inl (UInt64.lt_iff_toNat_lt.mpr (by omega))⟩)
            exact hbetween x hx ⟨hx'.1, by omega⟩
      | none =>
        have hend : s.store.entries.length ≤ idx := List.getElem?_eq_none_iff.mp hentry
        have hall : s.store.entries.take idx = s.store.entries := take_of_length_le hend
        have hbelow : ∀ e ∈ s.store.entries, e.seq.toNat < cur.toNat :=
          fun e he => hplace.below e (hall.symm ▸ he)
        refine hgap (stop + 1) (by omega) (by omega) (fun e he hin => ?_) (.inl hnext) ?_ ?_
        · have hlt := hbelow e he
          omega
        · refine ⟨hplace.le_length, fun e he => ?_, fun e he => ?_⟩
          · have hlt := hplace.below e he
            omega
          · rw [drop_eq_nil_of_le hend] at he
            exact absurd he not_mem_nil
        · refine .inr ⟨?_, .inl (UInt64.lt_iff_toNat_lt.mpr (by omega))⟩
          rcases hfuel with hmany | ⟨-, hdone | ⟨e, he, -⟩⟩
          · omega
          · exact absurd hle (UInt64.not_le.mpr hdone)
          · rw [hentry] at he
            exact absurd he nofun
    · rw [if_neg hle]
      have hlt := UInt64.lt_iff_toNat_lt.mp (UInt64.not_le.mp hle)
      exact ⟨s, rfl, [], .done hlt, fun _ => (append_nil _).symm⟩

/-- More turns change nothing. -/
theorem serveLoop_mono {s s' : FixSession} {fuel more idx : Nat} {cur : UInt64}
    (h : serveLoop stop now fuel idx cur s = some s') (hle : fuel ≤ more) :
    serveLoop stop now more idx cur s = some s' := by
  induction fuel generalizing more idx cur s with
  | zero => exact absurd h nofun
  | succ fuel ih =>
    obtain ⟨more, rfl⟩ : ∃ k, more = k + 1 := ⟨more - 1, by omega⟩
    rw [serveLoop] at h ⊢
    split_ifs with hcur
    · rw [if_pos hcur] at h
      split
      · rename_i e he
        rw [he] at h
        dsimp only at h
        split
        · rename_i hhere
          rw [if_pos hhere] at h
          exact ih h (Nat.le_of_succ_le_succ hle)
        · rename_i hhere
          rw [if_neg hhere] at h
          exact ih h (Nat.le_of_succ_le_succ hle)
      · rename_i he
        rw [he] at h
        exact ih h (Nat.le_of_succ_le_succ hle)
    · rw [if_neg hcur] at h
      exact h

/-- Every number is within the last that 64 bits hold. -/
theorem serveLoop_for_ever (s : FixSession) (hstop : stop.toNat + 1 = 2 ^ 64) (fuel idx : Nat) :
    serveLoop stop now fuel idx cur s = none := by
  induction fuel generalizing idx cur s with
  | zero => rfl
  | succ fuel ih =>
    have hlt := cur.toNat_lt
    rw [serveLoop, if_pos (UInt64.le_iff_toNat_le.mpr (by omega))]
    split
    · split
      · exact ih _ _
      · exact ih _ _
    · exact ih _ _

/-! ## Requests -/

/-- The number of the last message sent. -/
def lastSent (s : FixSession) : Nat := (s.nextSenderSeq - 1).toNat

/-- Where a request ends. -/
def stopOf (s : FixSession) (endSeq : Int) : Nat :=
  if endSeq = 0 ∨ (s.lastSent : Int) < endSeq then s.lastSent else endSeq.toNat

theorem lastSent_lt (s : FixSession) (h : s.nextSenderSeq ≠ 0) : s.lastSent + 1 < 2 ^ 64 := by
  have hpos : s.nextSenderSeq.toNat ≠ 0 := fun hzero => h (UInt64.toNat_inj.mp hzero)
  have hlt := s.nextSenderSeq.toNat_lt
  have hone : (1 : UInt64).toNat = 1 := rfl
  unfold lastSent
  rw [UInt64.toNat_sub_of_le _ _ (UInt64.le_iff_toNat_le.mpr (by omega)), hone]
  omega

/-- A request is answered by messages that tile its range, and the loop ends. -/
theorem resend_request_is_tiled (s : FixSession) (seq : UInt64) {beginSeq endSeq : Int}
    (hbegin : s.view.getInt Tag.kBeginSeqNo = some beginSeq)
    (hend : s.view.getInt Tag.kEndSeqNo = some endSeq) (hpos : 0 < beginSeq) (hnonneg : 0 ≤ endSeq)
    (hnext : s.nextSenderSeq ≠ 0 ∨ 0 < endSeq)
    (hfit : ∀ e ∈ inRange s.store.entries beginSeq.toNat (s.stopOf endSeq),
      ((Answer.resend e).bytes s.cfg s.now).length ≤ kMaxMessageBytes) :
    ∃ s', (∀ fuel, 2 * s.store.entries.length + 2 ≤ fuel →
        s.handleResendRequest fuel seq = some s') ∧
      ((s.lastSent : Int) < beginSeq → s'.sent = s.sent) ∧
      (beginSeq ≤ s.lastSent → ∃ answers,
        Tiles s.store.entries (s.stopOf endSeq) beginSeq.toNat answers ∧
        answers.filterMap Answer.stored? =
          inRange s.store.entries beginSeq.toNat (s.stopOf endSeq) ∧
        s'.sent = s.sent ++ answers.map (Answer.bytes s.cfg s.now)) := by
  have hb := toNat_ofInt hpos.le (parseFixInt_lt hbegin).2
  have he := toNat_ofInt hnonneg (parseFixInt_lt hend).2
  have hsmall := (parseFixInt_lt hend).2
  have hrun : ∀ fuel, s.handleResendRequest fuel seq =
      s.serveResend fuel (.ofInt beginSeq) (.ofInt endSeq) := by
    intro fuel
    unfold handleResendRequest
    rw [hbegin, hend]
    exact if_neg (by omega)
  have hcount : ((UInt64.ofInt beginSeq).toNat : Nat) = beginSeq.toNat := by omega
  by_cases hpast : (s.lastSent : Int) < beginSeq
  · refine ⟨s, fun fuel _ => ?_, fun _ => rfl, fun hle => absurd hle (Int.not_le.mpr hpast)⟩
    rw [hrun]
    exact if_pos (UInt64.lt_iff_toNat_lt.mpr (by unfold lastSent at hpast; omega))
  -- the end of the range
  obtain ⟨stop, hstop⟩ : ∃ stop : UInt64, stop =
    if UInt64.ofInt endSeq = 0 ∨ s.nextSenderSeq - 1 < .ofInt endSeq then s.nextSenderSeq - 1
    else .ofInt endSeq := ⟨_, rfl⟩
  have hzero : UInt64.ofInt endSeq = 0 ↔ endSeq = 0 := by
    rw [← UInt64.toNat_inj]
    show (UInt64.ofInt endSeq).toNat = 0 ↔ _
    omega
  have hbelow : s.nextSenderSeq - 1 < .ofInt endSeq ↔ (s.lastSent : Int) < endSeq := by
    rw [UInt64.lt_iff_toNat_lt]
    unfold lastSent
    omega
  have hstopNat : stop.toNat = s.stopOf endSeq := by
    have hcond : (UInt64.ofInt endSeq = 0 ∨ s.nextSenderSeq - 1 < .ofInt endSeq) ↔
        (endSeq = 0 ∨ (s.lastSent : Int) < endSeq) := or_congr hzero hbelow
    unfold stopOf
    rw [hstop]
    by_cases hlast : endSeq = 0 ∨ (s.lastSent : Int) < endSeq
    · rw [if_pos hlast, if_pos (hcond.mpr hlast)]
      rfl
    · rw [if_neg hlast, if_neg (mt hcond.mp hlast)]
      omega
  have hroom : stop.toNat + 1 < 2 ^ 64 := by
    rw [hstopNat]
    unfold stopOf
    rcases hnext with hnext | hnext
    · have hlast := s.lastSent_lt hnext
      split <;> omega
    · split <;> omega
  have hplace := s.store.lowerBound_place (.ofInt beginSeq)
  obtain ⟨s', hs', answers, htiles, hsent⟩ := serveLoop_serves s.ticked
    (2 * s.store.entries.length + 2) (s.store.lowerBound (.ofInt beginSeq)) (.ofInt beginSeq) s.now
    hroom hplace (.inl (by show 2 * (s.store.entries.length - _) + 2 ≤ _; omega))
  rw [hcount, hstopNat] at htiles hsent
  refine ⟨s', fun fuel hfuel => ?_, fun hlt => absurd hlt hpast, fun _ =>
    ⟨answers, htiles, htiles.stored s.store.sorted, hsent hfit⟩⟩
  rw [hrun]
  unfold serveResend
  rw [if_neg, ← hstop]
  · exact serveLoop_mono hs' hfuel
  · rw [UInt64.lt_iff_toNat_lt]
    unfold lastSent at hpast
    omega

/-! ## A trader -/

/-- A session that has sent four messages, the second and the fourth of them orders, and is asked
for messages. -/
def trader (beginSeq endSeq : Bytes) : FixSession :=
  let cfg : FixSessionConfig :=
    { senderCompId := .assign (ascii "MM"), targetCompId := .assign (ascii "EX") }
  let store := ((create cfg none).store.append 2 (ascii "D") 7 (fieldBytes 11 (ascii "a"))).2
  { create cfg none with
    nextSenderSeq := 5
    store := (store.append 4 (ascii "D") 9 (fieldBytes 11 (ascii "b"))).2
    view := (FixView.parse {} (wire kBeginString44 (fieldsBytes
      [(Tag.kMsgType, MsgType.kResendRequest), (Tag.kMsgSeqNum, ascii "1"),
        (Tag.kBeginSeqNo, beginSeq), (Tag.kEndSeqNo, endSeq)])) [] true).2 }

theorem trader_answers : ∃ s' answers,
    (trader (ascii "1") (ascii "0")).handleResendRequest 6 1 = some s' ∧
      Tiles (trader (ascii "1") (ascii "0")).store.entries 4 1 answers ∧
      s'.sent.length = answers.length := by
  obtain ⟨s', hrun, -, hserved⟩ := resend_request_is_tiled (trader (ascii "1") (ascii "0")) 1
    (show _ = some (1 : Int) by decide +kernel) (show _ = some (0 : Int) by decide +kernel)
    (by decide) (by decide) (.inl (by decide)) (by decide +kernel)
  obtain ⟨answers, htiles, -, hsent⟩ := hserved (by decide)
  refine ⟨s', answers, hrun 6 (by decide), htiles, ?_⟩
  rw [hsent]
  exact length_map _

/-- Where the next number is zero, a request without an end is answered for ever. -/
theorem trader_answers_for_ever :
    let s := (trader (ascii "1") (ascii "0")).setNextSenderSeq 0
    s.view.getInt Tag.kBeginSeqNo = some 1 ∧ s.view.getInt Tag.kEndSeqNo = some 0 ∧
      ∀ fuel seq, s.handleResendRequest fuel seq = none := by
  obtain ⟨s, hs⟩ : ∃ s, s = (trader (ascii "1") (ascii "0")).setNextSenderSeq 0 := ⟨_, rfl⟩
  have hbegin : s.view.getInt Tag.kBeginSeqNo = some 1 := by
    rw [hs]
    decide +kernel
  have hend : s.view.getInt Tag.kEndSeqNo = some 0 := by
    rw [hs]
    decide +kernel
  have hlast : s.nextSenderSeq - 1 = 18446744073709551615 := by
    rw [hs]
    rfl
  rw [← hs]
  refine ⟨hbegin, hend, fun fuel seq => ?_⟩
  unfold handleResendRequest serveResend
  rw [hbegin, hend, hlast]
  exact serveLoop_for_ever _ rfl fuel _

end FixSession

end FastMM.Fix
