/-
  Soup/Resumption.lean --- a session that resumes loses no message and repeats none.

  Source: as `Soup/Link.lean`.

  The frames on their way to a client that is up are the messages it has not been told, in
  order; those on their way to a client that logs on have the Login Accepted for its next
  message before them.  A server that waits for a login has sent neither, and every Login
  Request on its way asks for the client's next message.
-/
import FastMM.Soup.Link
set_option autoImplicit false

namespace FastMM.Soup

open Foundation ClientSession List ServerSession

/-! ## Frames on their way -/

variable (frames : List Frame)

def NoAccept : Prop := ∀ f ∈ frames, f.kind ≠ kLoginAccepted

/-- Neither a login's answer nor a message. -/
def Plain (f : Frame) : Prop := f.kind ≠ kLoginAccepted ∧ f.kind ≠ kSequencedData

/-- A Login Request comes from a client that is not up and asks for its next message. -/
def LoginFor (state : SessionState) (n : Nat) (f : Frame) : Prop :=
  f.kind = kLoginRequest →
    state ≠ .Up ∧ ∀ v, parseLoginRequest f.payload = some v → v.sequence = n

def seqPayloads : List Bytes :=
  (frames.filter fun f => f.kind = kSequencedData).map Frame.payload

/-- The messages due are on their way: all of them when `full`, else the first of them. -/
structure Served (frames : List Frame) (due : List Bytes) (full : Prop) : Prop where
  noAccept : NoAccept frames
  order : seqPayloads frames <+: due
  all : full → seqPayloads frames = due

/-- Nothing that a client not yet up could take, or the Login Accepted for message `n` and then
what is due from there. -/
def Incoming (n : Nat) (due : List Bytes) (full : Prop) : Prop :=
  NoAccept frames ∨ ∃ before accepted after, frames = before ++ accepted :: after ∧
    (∀ f ∈ before, Plain f) ∧ accepted.kind = kLoginAccepted ∧
    (∀ v, parseLoginAccepted accepted.payload = some v → v.sequence = n) ∧ Served after due full

def Coming (state : SessionState) (frames : List Frame) (n : Nat) (due : List Bytes)
    (full : Prop) : Prop :=
  if state = .Up then Served frames due full else Incoming frames n due full

section Coming

variable {state state' : SessionState} {frames : List Frame} {n : Nat} {due : List Bytes}
  {full full' : Prop} {f : Frame} {msg : Bytes}

theorem seqPayloads_append (l₁ l₂ : List Frame) :
    seqPayloads (l₁ ++ l₂) = seqPayloads l₁ ++ seqPayloads l₂ := by
  unfold seqPayloads
  rw [filter_append, map_append]

theorem seqPayloads_plain {l : List Frame} (h : ∀ f ∈ l, f.kind ≠ kSequencedData) :
    seqPayloads l = [] := by
  unfold seqPayloads
  rw [filter_eq_nil_iff.mpr fun f hf => by simpa using h f hf]
  rfl

theorem NoAccept.append {l₁ l₂ : List Frame} (h₁ : NoAccept l₁) (h₂ : NoAccept l₂) :
    NoAccept (l₁ ++ l₂) := fun f hf => (mem_append.mp hf).elim (h₁ f) (h₂ f)

theorem noAccept_singleton (h : f.kind ≠ kLoginAccepted) : NoAccept [f] := fun g hg => by
  rw [mem_singleton.mp hg]
  exact h

section

variable (h : Served frames due full)
include h

theorem Served.weaken (hfull : full' → full) :
    Served frames due full' := ⟨h.noAccept, h.order, fun hf => h.all (hfull hf)⟩

/-- A frame that is no message follows. -/
theorem Served.other (hf : Plain f) (hfull : full' → full) :
    Served (frames ++ [f]) due full' := by
  have hsame : seqPayloads (frames ++ [f]) = seqPayloads frames := by
    have hnone : seqPayloads [f] = [] := seqPayloads_plain fun g hg => by
      rw [mem_singleton.mp hg]
      exact hf.2
    rw [seqPayloads_append, hnone, append_nil]
  exact ⟨h.noAccept.append (noAccept_singleton hf.1), hsame ▸ h.order,
    fun hfl => hsame ▸ h.all (hfull hfl)⟩

/-- A new message follows those that are due. -/
theorem Served.data (hfull : full) :
    Served (frames ++ [⟨kSequencedData, msg⟩]) (due ++ [msg]) full' := by
  have heq : seqPayloads (frames ++ [⟨kSequencedData, msg⟩]) = due ++ [msg] := by
    rw [seqPayloads_append, h.all hfull]
    rfl
  exact ⟨h.noAccept.append (noAccept_singleton (show kSequencedData ≠ kLoginAccepted by decide)),
    heq ▸ prefix_rfl, fun _ => heq⟩

/-- A new message is due that is not sent. -/
theorem Served.grow (hfull : ¬ full') :
    Served frames (due ++ [msg]) full' :=
  ⟨h.noAccept, h.order.trans (prefix_append _ _), fun hf => absurd hf hfull⟩

end

section

variable (h : Coming state frames n due full)
include h

/-- What is kept of every way frames can be coming. -/
theorem Coming.map {frames' : List Frame} {due' : List Bytes}
    (hframes : ∃ more, frames' = frames ++ more ∧ NoAccept more ∧
      ∀ l, Served l due full → Served (l ++ more) due' full') :
    Coming state frames' n due' full' := by
  obtain ⟨more, rfl, hmore, hserved⟩ := hframes
  unfold Coming at h ⊢
  split_ifs at h with hup
  · rw [if_pos hup]
    exact hserved frames h
  rw [if_neg hup]
  rcases h with hno | ⟨before, accepted, after, rfl, hbefore, hkind, hparse, hafter⟩
  · exact .inl (hno.append hmore)
  · refine .inr ⟨before, accepted, after ++ more, ?_, hbefore, hkind, hparse, hserved after hafter⟩
    rw [append_assoc, cons_append]

theorem Coming.other (hf : Plain f) (hfull : full' → full) :
    Coming state (frames ++ [f]) n due full' :=
  h.map ⟨[f], rfl, noAccept_singleton hf.1, fun _ hl => hl.other hf hfull⟩

theorem Coming.data (hfull : full) :
    Coming state (frames ++ [⟨kSequencedData, msg⟩]) n (due ++ [msg]) full' :=
  h.map ⟨[_], rfl, noAccept_singleton (show kSequencedData ≠ kLoginAccepted by decide),
    fun _ hl => hl.data hfull⟩

theorem Coming.grow (hfull : ¬ full') :
    Coming state frames n (due ++ [msg]) full' :=
  h.map ⟨[], (append_nil _).symm, fun _ hf => absurd hf not_mem_nil,
    fun l hl => by rw [append_nil]; exact hl.grow hfull⟩

theorem Coming.weaken (hfull : full' → full) :
    Coming state frames n due full' :=
  h.map ⟨[], (append_nil _).symm, fun _ hf => absurd hf not_mem_nil,
    fun l hl => by rw [append_nil]; exact hl.weaken hfull⟩

/-- A client that is not up, or no longer, can take no less than before. -/
theorem Coming.leave (hup : state' ≠ .Up) :
    Coming state' frames n due full := by
  unfold Coming at h ⊢
  rw [if_neg hup]
  split at h
  · exact .inl h.noAccept
  · exact h

end

/-- A message that is due goes before the others. -/
theorem Served.push (h : Served frames due full) :
    Served (⟨kSequencedData, msg⟩ :: frames) (msg :: due) full := by
  have heq : seqPayloads (⟨kSequencedData, msg⟩ :: frames) = msg :: seqPayloads frames := rfl
  refine ⟨fun f hf => ?_, ?_, fun hfl => by rw [heq, h.all hfl]⟩
  · rcases mem_cons.mp hf with rfl | hf
    · show kSequencedData ≠ kLoginAccepted
      decide
    · exact h.noAccept f hf
  · rw [heq]
    exact prefix_cons_inj msg |>.mpr h.order

/-- A client that is up takes a frame. -/
theorem Served.cons (h : Served (f :: frames) due full) :
    (f.kind = kSequencedData ∧ ∃ rest, due = f.payload :: rest ∧ Served frames rest full) ∨
      (f.kind ≠ kSequencedData ∧ Served frames due full) := by
  have hno : NoAccept frames := fun g hg => h.noAccept g (mem_cons_of_mem f hg)
  have horder := h.order
  have hall := h.all
  by_cases hf : f.kind = kSequencedData
  · have heq : seqPayloads (f :: frames) = f.payload :: seqPayloads frames := by
      unfold seqPayloads
      rw [filter_cons_of_pos (by simpa using hf), map_cons]
    rw [heq] at horder hall
    obtain ⟨rest, rfl⟩ := horder
    refine .inl ⟨hf, seqPayloads frames ++ rest, rfl, hno, prefix_append _ _, fun hfl => ?_⟩
    exact (List.cons.inj (hall hfl)).2
  · have heq : seqPayloads (f :: frames) = seqPayloads frames := by
      unfold seqPayloads
      rw [filter_cons_of_neg (by simpa using hf)]
    rw [heq] at horder hall
    exact .inr ⟨hf, hno, horder, hall⟩

/-- A client that is not takes one. -/
theorem Incoming.cons (h : Incoming (f :: frames) n due full) : (f.kind = kLoginAccepted ∧
        (∀ v, parseLoginAccepted f.payload = some v → v.sequence = n) ∧ Served frames due full) ∨
      (f.kind ≠ kLoginAccepted ∧ Incoming frames n due full) := by
  rcases h with hno | ⟨before, accepted, after, heq, hbefore, hkind, hparse, hafter⟩
  · exact .inr ⟨hno f mem_cons_self, .inl fun g hg => hno g (mem_cons_of_mem f hg)⟩
  cases before with
  | nil =>
    obtain ⟨rfl, rfl⟩ := List.cons.inj heq
    exact .inl ⟨hkind, hparse, hafter⟩
  | cons b before =>
    obtain ⟨rfl, rfl⟩ := List.cons.inj heq
    refine .inr ⟨(hbefore f mem_cons_self).1, .inr ⟨before, accepted, after, rfl, ?_,
      hkind, hparse, hafter⟩⟩
    exact fun g hg => hbefore g (mem_cons_of_mem f hg)

/-- A client takes a frame and is not up after it. -/
theorem Coming.down (h : Coming state (f :: frames) n due full) (hup : state' ≠ .Up) :
    Coming state' frames n due full := by
  unfold Coming at h ⊢
  rw [if_neg hup]
  split at h
  · exact .inl fun g hg => h.noAccept g (mem_cons_of_mem f hg)
  · rcases h.cons with ⟨-, -, hserved⟩ | ⟨-, hin⟩
    · exact .inl hserved.noAccept
    · exact hin

end Coming

/-! ## Sends -/

/-- A send that succeeds writes all of the bytes, and one that fails some of them, unless the
wire was broken before. -/
structure Sent (bytes : Bytes) (ok : Bool) (w w' : Wire) : Prop where
  broken : w'.broken = !ok
  whole : ok = true → w.broken = false ∧ w'.bytes = w.bytes ++ bytes
  none : w.broken = true → w'.bytes = w.bytes
  part : ∃ written, written <+: bytes ∧ w'.bytes = w.bytes ++ written

section Sent

variable {bytes more : Bytes} {ok : Bool} {w w' w'' : Wire} {f : Frame}

theorem Wire.send_spec (h : w.send bytes = (ok, w')) : Sent bytes ok w w' := by
  unfold Wire.send at h
  split at h <;> cases h
  · rename_i hbroken
    exact ⟨hbroken, nofun, fun _ => rfl, [], nil_prefix,
      (append_nil _).symm⟩
  · rename_i hbroken _
    exact ⟨rfl, nofun, fun hb => absurd (hbroken.symm.trans hb) (by simp),
      bytes.take w.left, take_prefix _ _, rfl⟩
  · rename_i hbroken _
    exact ⟨hbroken, fun _ => ⟨hbroken, rfl⟩, fun hb => absurd (hbroken.symm.trans hb) (by simp),
      bytes, prefix_rfl, rfl⟩

theorem Sent.append (h : Sent bytes true w w') (h' : Sent more ok w' w'') :
    Sent (bytes ++ more) ok w w'' := by
  obtain ⟨hopen, hbytes⟩ := h.whole rfl
  refine ⟨h'.broken, fun hok => ⟨hopen, ?_⟩, fun hb => absurd (hopen.symm.trans hb) (by simp), ?_⟩
  · rw [(h'.whole hok).2, hbytes, append_assoc]
  · obtain ⟨written, hcut, hw⟩ := h'.part
    exact ⟨bytes ++ written, (prefix_append_right_inj _).mpr hcut, by
      rw [hw, hbytes, append_assoc]⟩

theorem Sent.cut (h : Sent bytes false w w') : Sent (bytes ++ more) false w w' := by
  obtain ⟨written, hcut, hw⟩ := h.part
  exact ⟨h.broken, nofun, h.none, written,
    hcut.trans (prefix_append _ _), hw⟩

/-- The frames a send of `f` adds. -/
def added (w : Wire) (f : Frame) : List Frame := if w.broken then [] else [f]

theorem mem_added {g : Frame} (h : g ∈ added w f) : g = f := by
  unfold added at h
  split at h
  · exact absurd h not_mem_nil
  · exact mem_singleton.mp h

theorem Sent.carries {frames : List Frame} {buffer : Bytes} (h : Sent f.bytes ok w w')
    (hc : Carries Frame.bytes Frame.Fits frames buffer w.bytes w.broken) (hf : f.Fits) :
    Carries Frame.bytes Frame.Fits (frames ++ added w f) buffer w'.bytes w'.broken := by
  unfold added
  cases hbroken : w.broken with
  | true =>
    have hok : ok = false := by
      cases ok with
      | true => exact absurd (hbroken.symm.trans (h.whole rfl).1) (by simp)
      | false => rfl
    rw [if_pos rfl, append_nil, h.none hbroken, h.broken, hok]
    rw [hbroken] at hc
    exact hc
  | false =>
    obtain ⟨written, hcut, hw⟩ := h.part
    rw [if_neg (by simp), hw]
    rw [hbroken] at hc
    refine hc.write hf hcut fun hopen => ?_
    have hok : ok = true := by simpa [h.broken] using hopen
    exact append_cancel_left (hw.symm.trans (h.whole hok).2)

end Sent

/-! ## The server's sends -/

namespace ServerSession

variable {s s' : ServerSession} {w w' : Wire} {ok : Bool} {f : Frame} {type : UInt8} {msg : Bytes}

/-- A session after it wrote `bytes`. -/
structure Wrote (bytes : Bytes) (ok : Bool) (s : ServerSession) (w : Wire) (s' : ServerSession)
    (w' : Wire) : Prop where
  sent : Sent bytes ok w w'
  history : s'.history = s.history
  cfg : s'.cfg = s.cfg
  state : s'.state = if ok then s.state else .Down

theorem write_spec {bytes : Bytes} (h : s.write w bytes = (ok, s', w')) :
    Wrote bytes ok s w s' w' := by
  unfold write at h
  split at h <;> rename_i hsend <;> cases h
  · exact ⟨w.send_spec hsend, rfl, rfl, rfl⟩
  · exact ⟨w.send_spec hsend, rfl, rfl, rfl⟩

theorem bytes_eq (type : UInt8) (msg : Bytes) :
    Frame.bytes ⟨type, msg⟩ = (storeBe 2 (msg.length + 1) ++ [type]) ++ msg := by
  rw [append_assoc]
  rfl

theorem writeData_spec (hfits : msg.length ≤ kMaxPayload)
    (h : s.writeData type msg w = (ok, s', w')) :
    Wrote (Frame.bytes ⟨type, msg⟩) ok s w s' w' := by
  unfold writeData writeHeader at h
  rw [if_neg (by omega)] at h
  dsimp only at h
  rw [bytes_eq]
  split at h
  · rename_i s₁ w₁ hhdr
    have hw := write_spec hhdr
    split_ifs at h with hempty
    · cases h
      rw [isEmpty_iff.mp hempty] at hw ⊢
      rw [append_nil]
      exact hw
    · have hw' := write_spec h
      refine ⟨hw.sent.append hw'.sent, hw'.history.trans hw.history, hw'.cfg.trans hw.cfg, ?_⟩
      rw [hw'.state, hw.state, if_pos rfl]
  · rename_i s₁ w₁ hhdr
    have hw := write_spec hhdr
    cases h
    exact ⟨hw.sent.cut, hw.history, hw.cfg, hw.state⟩

/-- What a session does but for logins and sequenced messages: it sends a frame that is neither,
or none. -/
structure Routine (s : ServerSession) (w : Wire) (s' : ServerSession) (w' : Wire) : Prop where
  history : s'.history = s.history
  cfg : s'.cfg = s.cfg
  state : s'.state = s.state ∨ s'.state = .Down
  sends : w' = w ∨ ∃ f ok, Plain f ∧ f.Fits ∧ Sent f.bytes ok w w'

theorem Routine.refl (s : ServerSession) (w : Wire) : Routine s w s w :=
  ⟨rfl, rfl, .inl rfl, .inl rfl⟩

theorem Wrote.routine (h : Wrote f.bytes ok s w s' w') (hplain : Plain f) (hfits : f.Fits) :
    Routine s w s' w' := by
  refine ⟨h.history, h.cfg, ?_, .inr ⟨f, ok, hplain, hfits, h.sent⟩⟩
  rw [h.state]
  cases ok with
  | true => exact .inl rfl
  | false => exact .inr rfl

theorem routine_control {type : UInt8} (htype : type ≠ kLoginAccepted ∧ type ≠ kSequencedData) :
    Routine s w (s.write w (writeControl type)).2.1 (s.write w (writeControl type)).2.2 :=
  Wrote.routine (f := ⟨type, []⟩) (write_spec rfl) htype (Nat.zero_le _)

theorem routine_close (h : Routine s w s' w') (r : CloseReason) : Routine s w (s'.close r) w' :=
  ⟨h.history, h.cfg, .inr rfl, h.sends⟩

theorem routine_writeData (htype : type ≠ kLoginAccepted ∧ type ≠ kSequencedData) :
    Routine s w (s.writeData type msg w).2.1 (s.writeData type msg w).2.2 := by
  by_cases hfits : msg.length ≤ kMaxPayload
  · exact (writeData_spec hfits rfl).routine htype hfits
  · unfold writeData writeHeader
    rw [if_pos (by omega)]
    exact Routine.refl s w

/-- A session that differs in its clock. -/
theorem Routine.of {s₁ : ServerSession} (h : Routine s₁ w s' w') (hhistory : s₁.history = s.history)
    (hcfg : s₁.cfg = s.cfg) (hstate : s₁.state = s.state) : Routine s w s' w' :=
  ⟨h.history.trans hhistory, h.cfg.trans hcfg, hstate ▸ h.state, h.sends⟩

theorem routine_onTimer (nowNs : Int) : Routine s w (s.onTimer nowNs w).1
    (s.onTimer nowNs w).2 := by
  unfold onTimer
  dsimp only
  have hsame : ∃ s₁ : ServerSession,
      (if s.rxActivity then { s with nowNs := nowNs, lastRxNs := nowNs, rxActivity := false }
        else { s with nowNs := nowNs }) = s₁ ∧
      s₁.history = s.history ∧ s₁.cfg = s.cfg ∧ s₁.state = s.state := by
    split <;> exact ⟨_, rfl, rfl, rfl, rfl⟩
  obtain ⟨s₁, heq, hhistory, hcfg, hstate⟩ := hsame
  rw [heq]
  refine Routine.of ?_ hhistory hcfg hstate
  split
  · split
    · exact routine_close (Routine.refl s₁ w) _
    · exact Routine.refl s₁ w
  split
  · exact Routine.refl s₁ w
  split
  · exact routine_close (Routine.refl s₁ w) _
  · split
    · exact routine_control (by decide)
    · exact Routine.refl s₁ w

theorem routine_reject {code : UInt8} : Routine s w (s.reject code w).1 (s.reject code w).2 := by
  have h : Routine s w (s.write w (writeLoginRejected code)).2.1
      (s.write w (writeLoginRejected code)).2.2 :=
    Wrote.routine (f := ⟨kLoginRejected, [code]⟩) (write_spec rfl)
      ⟨by show kLoginRejected ≠ _; decide, by show kLoginRejected ≠ _; decide⟩
      (by show 1 ≤ kMaxPayload; decide)
  exact routine_close h .LoginRejected

theorem routine_sendUnsequenced :
    Routine s w (s.sendUnsequenced msg w).2.1 (s.sendUnsequenced msg w).2.2 := by
  unfold sendUnsequenced
  split
  · exact Routine.refl s w
  · exact routine_writeData (by decide)

theorem routine_endSession : Routine s w (s.endSession w).2.1 (s.endSession w).2.2 := by
  have h := @routine_control s w kEndOfSession (by decide)
  exact ⟨h.history, h.cfg, .inr rfl, h.sends⟩

theorem routine_onDisconnect : Routine s w s.onDisconnect w := by
  unfold onDisconnect
  split
  · exact routine_close (Routine.refl s w) _
  · exact Routine.refl s w

end ServerSession

/-! ## The client's sends -/

namespace ClientSession

variable {c c' : ClientSession} {w w' : Wire} {ok : Bool} {f : Frame} {msg : Bytes}

/-- A session after it wrote `bytes`. -/
structure Wrote (bytes : Bytes) (ok : Bool) (c : ClientSession) (w : Wire) (c' : ClientSession)
    (w' : Wire) : Prop where
  sent : Sent bytes ok w w'
  next : c'.nextSequence = c.nextSequence
  state : c'.state = if ok then c.state else .Down

theorem write_spec {bytes : Bytes} (h : c.write w bytes = (ok, c', w')) :
    Wrote bytes ok c w c' w' := by
  unfold write at h
  split at h <;> rename_i hsend <;> cases h
  · exact ⟨w.send_spec hsend, rfl, rfl⟩
  · exact ⟨w.send_spec hsend, rfl, rfl⟩

/-- What a session does but for the frames it gets: it sends a frame, or none. -/
structure Routine (c : ClientSession) (w : Wire) (c' : ClientSession) (w' : Wire) : Prop where
  next : c'.nextSequence = c.nextSequence
  state : c'.state = c.state ∨ c'.state ≠ .Up
  sends : w' = w ∨ ∃ f ok, LoginFor c'.state c.nextSequence f ∧ f.Fits ∧ Sent f.bytes ok w w'

theorem Routine.refl (c : ClientSession) (w : Wire) : Routine c w c w := ⟨rfl, .inl rfl, .inl rfl⟩

theorem loginFor_of_ne {state : SessionState} {n : Nat} (h : f.kind ≠ kLoginRequest) :
    LoginFor state n f := fun he => absurd he h

theorem Wrote.routine (h : Wrote f.bytes ok c w c' w') (hkind : f.kind ≠ kLoginRequest)
    (hfits : f.Fits) : Routine c w c' w' := by
  refine ⟨h.next, ?_, .inr ⟨f, ok, loginFor_of_ne hkind, hfits, h.sent⟩⟩
  rw [h.state]
  cases ok with
  | true => exact .inl rfl
  | false => exact .inr (by simp)

theorem routine_control {type : UInt8} (htype : type ≠ kLoginRequest) :
    Routine c w (c.write w (writeControl type)).2.1 (c.write w (writeControl type)).2.2 :=
  Wrote.routine (f := ⟨type, []⟩) (write_spec rfl) htype (Nat.zero_le _)

theorem routine_close (c : ClientSession) (w : Wire) (r : CloseReason) :
    Routine c w (c.close r) w :=
  ⟨rfl, .inr (by show SessionState.Down ≠ .Up; decide), .inl rfl⟩

/-- A session that differs in its clock. -/
theorem Routine.of {c₁ : ClientSession} (h : Routine c₁ w c' w')
    (hnext : c₁.nextSequence = c.nextSequence) (hstate : c₁.state = c.state) : Routine c w c' w' :=
  ⟨h.next.trans hnext, hstate ▸ h.state, hnext ▸ h.sends⟩

theorem routine_onTimer (nowNs : Int) : Routine c w (c.onTimer nowNs w).1
    (c.onTimer nowNs w).2 := by
  unfold onTimer
  dsimp only
  have hsame : ∃ c₁ : ClientSession,
      (if c.rxActivity then { c with nowNs := nowNs, lastRxNs := nowNs, rxActivity := false }
        else { c with nowNs := nowNs }) = c₁ ∧
      c₁.nextSequence = c.nextSequence ∧ c₁.state = c.state := by
    split <;> exact ⟨_, rfl, rfl, rfl⟩
  obtain ⟨c₁, heq, hnext, hstate⟩ := hsame
  rw [heq]
  refine Routine.of ?_ hnext hstate
  split
  · split
    · exact routine_close c₁ w _
    · exact Routine.refl c₁ w
  split
  · exact Routine.refl c₁ w
  split
  · exact routine_close c₁ w _
  · split
    · exact routine_control (by decide)
    · exact Routine.refl c₁ w

theorem routine_login (hn : c.nextSequence ≤ 18446744073709551615) (nowNs : Int) :
    Routine c w (c.login nowNs w).2.1 (c.login nowNs w).2.2 := by
  unfold login
  dsimp only
  split
  · exact (Routine.refl { c with nowNs := nowNs } w).of rfl rfl
  rename_i bytes hreq
  obtain ⟨f, rfl, -, hfits, hparse⟩ := writeLoginRequest_eq hreq hn
  split <;> rename_i c₁ w₁ hwrite
  · have hw := write_spec hwrite
    have hup : SessionState.LoggingOn ≠ .Up := by decide
    exact ⟨hw.next, .inr hup, .inr ⟨f, true, fun _ => ⟨hup, hparse⟩, hfits, hw.sent⟩⟩
  · have hw := write_spec hwrite
    have hup : c₁.state ≠ .Up := by
      rw [hw.state]
      simp
    exact ⟨hw.next, .inr hup, .inr ⟨f, false, fun _ => ⟨hup, hparse⟩, hfits, hw.sent⟩⟩

theorem send_spec (hup : c.state = .Up) (hfits : msg.length ≤ kMaxPayload)
    (h : c.send msg w = (ok, c', w')) :
    Wrote (Frame.bytes ⟨kUnsequencedData, msg⟩) ok c w c' w' := by
  unfold send writeHeader at h
  rw [if_neg (not_not.mpr hup), if_neg (by omega)] at h
  dsimp only at h
  rw [bytes_eq]
  split at h
  · rename_i c₁ w₁ hhdr
    have hw := write_spec hhdr
    split_ifs at h with hempty
    · cases h
      rw [isEmpty_iff.mp hempty] at hw ⊢
      rw [append_nil]
      exact hw
    · have hw' := write_spec h
      refine ⟨hw.sent.append hw'.sent, hw'.next.trans hw.next, ?_⟩
      rw [hw'.state, hw.state, if_pos rfl]
  · rename_i c₁ w₁ hhdr
    have hw := write_spec hhdr
    cases h
    exact ⟨hw.sent.cut, hw.next, hw.state⟩

theorem routine_send : Routine c w (c.send msg w).2.1 (c.send msg w).2.2 := by
  by_cases hup : c.state = .Up
  · by_cases hfits : msg.length ≤ kMaxPayload
    · exact (send_spec hup hfits rfl).routine
        (show kUnsequencedData ≠ kLoginRequest by decide) hfits
    · unfold send writeHeader
      rw [if_neg (not_not.mpr hup), if_pos (by omega)]
      exact Routine.refl c w
  · unfold send
    rw [if_pos hup]
    exact Routine.refl c w

theorem routine_logout : Routine c w (c.logout w).2.1 (c.logout w).2.2 := by
  unfold logout
  split
  · exact Routine.refl c w
  have h := @routine_control c w kLogoutRequest (by decide)
  have hup : SessionState.Down ≠ .Up := by decide
  refine ⟨h.next, .inr hup, h.sends.imp_right ?_⟩
  rintro ⟨f, ok, hlogin, hfits, hsent⟩
  exact ⟨f, ok, fun hk => ⟨hup, (hlogin hk).2⟩, hfits, hsent⟩

theorem routine_onDisconnect : Routine c w c.onDisconnect w := by
  unfold onDisconnect
  split
  · exact routine_close c w _
  · exact Routine.refl c w

/-- What a frame does: it is a message for a client that is up, or the answer to a login, or
leaves the sequence as it is. -/
theorem onFrame_cases (c : ClientSession) (f : Frame) :
    (f.kind = kSequencedData ∧ c.state = .Up ∧ (c.onFrame f).1 = false ∧
        (c.onFrame f).2.state = .Up ∧ (c.onFrame f).2.nextSequence = c.nextSequence + 1) ∨
      (f.kind = kLoginAccepted ∧ (c.onFrame f).1 = true ∧ (c.onFrame f).2.state = .Up ∧
        c.state = .LoggingOn ∧
        ∃ v, parseLoginAccepted f.payload = some v ∧ (c.onFrame f).2.nextSequence = v.sequence) ∨
      ((c.onFrame f).2.nextSequence = c.nextSequence ∧
        ((c.onFrame f).2.state = .Down ∨
          (c.onFrame f).2.state = c.state ∧ Plain f) ∧
        ((c.onFrame f).1 = false → f.kind ≠ kSequencedData)) := by
  unfold onFrame
  dsimp only
  split
  · rename_i hseq
    split
    · exact .inr (.inr ⟨rfl, .inl rfl, nofun⟩)
    · rename_i hup
      exact .inl ⟨hseq, not_not.mp hup, rfl, not_not.mp hup, rfl⟩
  rename_i hseq
  split
  · rename_i hunseq
    refine .inr (.inr ?_)
    split
    · exact ⟨rfl, .inl rfl, fun _ => hseq⟩
    · exact ⟨rfl, .inr ⟨rfl, by rw [hunseq]; decide, hseq⟩, fun _ => hseq⟩
  split
  · rename_i hquiet
    refine .inr (.inr ⟨rfl, .inr ⟨rfl, ?_, hseq⟩, fun _ => hseq⟩)
    rcases hquiet with he | he <;> rw [he] <;> decide
  split
  · rename_i hkind
    split
    · rename_i v hparse
      split
      · exact .inr (.inr ⟨rfl, .inl rfl, fun _ => hseq⟩)
      · rename_i hlog
        exact .inr (.inl ⟨hkind, rfl, rfl, not_not.mp hlog, v, hparse, rfl⟩)
    · exact .inr (.inr ⟨rfl, .inl rfl, fun _ => hseq⟩)
  · refine .inr (.inr ?_)
    split
    · exact ⟨rfl, .inl rfl, fun _ => hseq⟩
    · split
      · exact ⟨rfl, .inl rfl, fun _ => hseq⟩
      · exact ⟨rfl, .inl rfl, fun _ => hseq⟩

end ClientSession

/-! ## What the two ends agree on -/

/-- `n` is the client's next message. -/
structure Agreed (client : SessionState) (n : Nat) (server : SessionState) (history : List Bytes)
    (broken : Bool) (toClient toServer : List Frame) : Prop where
  pos : 1 ≤ n
  bound : n ≤ history.length + 1
  coming : Coming client toClient n (history.drop (n - 1)) (server = .Up ∧ broken = false)
  waiting : server = .LoggingOn →
    (∀ f ∈ toClient, Plain f) ∧ ∀ f ∈ toServer, LoginFor client n f

namespace Agreed

variable {client client' server server' : SessionState} {n : Nat} {history : List Bytes}
  {broken broken' : Bool} {toClient toServer more : List Frame} {f : Frame} {msg : Bytes}

theorem connect (hpos : 1 ≤ n) (hbound : n ≤ history.length + 1) (client : SessionState) :
    Agreed client n .LoggingOn history false [] [] := by
  have hno : NoAccept [] := fun f hf => absurd hf not_mem_nil
  refine ⟨hpos, hbound, ?_, fun _ => ⟨fun f hf => absurd hf not_mem_nil,
    fun f hf => absurd hf not_mem_nil⟩⟩
  unfold Coming
  split
  · exact ⟨hno, nil_prefix, fun hf => absurd hf.1 (by simp)⟩
  · exact .inl hno

section

variable (h : Agreed client n server history broken toClient toServer)
include h

/-- The client leaves, or sends what is no wrong login. -/
theorem clientSends
    (hstate : client' = client ∨ client' ≠ .Up) (hmore : ∀ f ∈ more, LoginFor client' n f) :
    Agreed client' n server history broken toClient (toServer ++ more) := by
  refine ⟨h.pos, h.bound, ?_, fun hs => ⟨(h.waiting hs).1, fun f hf => ?_⟩⟩
  · rcases hstate with rfl | hne
    · exact h.coming
    · exact h.coming.leave hne
  · rcases mem_append.mp hf with hf | hf
    · intro hkind
      obtain ⟨hup, hseq⟩ := (h.waiting hs).2 f hf hkind
      exact ⟨hstate.elim (fun he => he ▸ hup) id, hseq⟩
    · exact hmore f hf

/-- The server leaves, or sends what is neither a login's answer nor a message. -/
theorem serverSends
    (hstate : server' = server ∨ server' = .Down) (hbroken : broken' = false → broken = false)
    (hmore : more = [] ∨ ∃ f, Plain f ∧ more = [f]) :
    Agreed client n server' history broken' (toClient ++ more) toServer := by
  have hfull : server' = .Up ∧ broken' = false → server = .Up ∧ broken = false := by
    rintro ⟨hup, hopen⟩
    refine ⟨hstate.elim (fun he => he ▸ hup) fun he => ?_, hbroken hopen⟩
    simp [he] at hup
  refine ⟨h.pos, h.bound, ?_, fun hs => ?_⟩
  · rcases hmore with rfl | ⟨f, hf, rfl⟩
    · rw [append_nil]
      exact h.coming.weaken hfull
    · exact h.coming.other hf hfull
  have hwait := h.waiting (hstate.elim (fun he => he ▸ hs) fun he => by
    rw [he] at hs
    exact nomatch hs)
  refine ⟨fun f hf => ?_, hwait.2⟩
  rcases mem_append.mp hf with hf | hf
  · exact hwait.1 f hf
  rcases hmore with rfl | ⟨g, hg, rfl⟩
  · exact absurd hf not_mem_nil
  · rw [mem_singleton.mp hf]
    exact hg

end

/-- The server takes a frame. -/
theorem serverTakes (h : Agreed client n server history broken toClient (f :: toServer)) :
    Agreed client n server history broken toClient toServer :=
  ⟨h.pos, h.bound, h.coming, fun hs => ⟨(h.waiting hs).1, fun g hg =>
    (h.waiting hs).2 g (mem_cons_of_mem f hg)⟩⟩

theorem drop_append (h : n ≤ history.length + 1) :
    (history ++ [msg]).drop (n - 1) = history.drop (n - 1) ++ [msg] :=
  drop_append_of_le_length (by omega)

/-- A new message that is not sent. -/
theorem kept (h : Agreed client n server history broken toClient toServer)
    (hfull : ¬ (server = .Up ∧ broken = false)) :
    Agreed client n server (history ++ [msg]) broken toClient toServer := by
  refine ⟨h.pos, ?_, ?_, h.waiting⟩
  · have := h.bound
    simp only [length_append, length_singleton]
    omega
  · rw [drop_append h.bound]
    exact h.coming.grow hfull

/-- A new message that is sent. -/
theorem sequenced (h : Agreed client n .Up history false toClient toServer)
    (hserver : server' ≠ .LoggingOn) :
    Agreed client n server' (history ++ [msg]) broken' (toClient ++ [⟨kSequencedData, msg⟩])
      toServer := by
  refine ⟨h.pos, ?_, ?_, fun hs => absurd hs hserver⟩
  · have := h.bound
    simp only [length_append, length_singleton]
    omega
  · rw [drop_append h.bound]
    exact h.coming.data ⟨rfl, rfl⟩

/-- The server answers a login and sends what the client has not got. -/
theorem accepted {accepted : Frame} {served : List Frame}
    (h : Agreed client n .LoggingOn history broken toClient toServer) (hclient : client ≠ .Up)
    (hkind : accepted.kind = kLoginAccepted)
    (hparse : ∀ v, parseLoginAccepted accepted.payload = some v → v.sequence = n)
    (hserver : server' ≠ .LoggingOn)
    (hserved : Served served (history.drop (n - 1)) (server' = .Up ∧ broken' = false)) :
    Agreed client n server' history broken' (toClient ++ accepted :: served) toServer := by
  refine ⟨h.pos, h.bound, ?_, fun hs => absurd hs hserver⟩
  unfold Coming
  rw [if_neg hclient]
  exact .inr ⟨toClient, accepted, served, rfl, (h.waiting rfl).1, hkind, hparse, hserved⟩

/-- The payload a client hands on. -/
def handed (c : ClientSession) (f : Frame) : List Bytes :=
  if (c.onFrame f).1 = false ∧ f.kind = kSequencedData then [f.payload] else []

/-- The client takes a frame: a message it hands on is the next one. -/
theorem clientTakes {c : ClientSession}
    (h : Agreed c.state c.nextSequence server history broken (f :: toClient) toServer) :
    Agreed (c.onFrame f).2.state (c.onFrame f).2.nextSequence server history broken toClient
        toServer ∧
      history.take ((c.onFrame f).2.nextSequence - 1) =
        history.take (c.nextSequence - 1) ++ handed c f := by
  have hpos := h.pos
  have hbound := h.bound
  have hcoming := h.coming
  unfold handed
  rcases c.onFrame_cases f with ⟨hkind, hup, hres, hup', hnext⟩ |
    ⟨hkind, hres, hup', hlog, v, hv, hnext⟩ | ⟨hnext, hstate, hres⟩
  · -- a message
    unfold Coming at hcoming
    rw [if_pos hup] at hcoming
    obtain ⟨rest, hrest, hserved⟩ :
        ∃ rest, history.drop (c.nextSequence - 1) = f.payload :: rest ∧
          Served toClient rest (server = .Up ∧ broken = false) :=
      hcoming.cons.elim And.right fun hne => absurd hkind hne.1
    have hlt : c.nextSequence - 1 < history.length := by
      have hlen := congrArg List.length hrest
      rw [length_drop, length_cons] at hlen
      omega
    rw [drop_eq_getElem_cons hlt] at hrest
    obtain ⟨hget, hdrop⟩ := List.cons.inj hrest
    rw [hup', hnext, hres, if_pos ⟨rfl, hkind⟩]
    refine ⟨⟨by omega, by omega, ?_, fun hs => ?_⟩, ?_⟩
    · unfold Coming
      rw [if_pos rfl, Nat.add_sub_cancel, show c.nextSequence = c.nextSequence - 1 + 1 by omega,
        hdrop]
      exact hserved
    · exact absurd hkind ((h.waiting hs).1 f mem_cons_self).2
    · rw [← hget, Nat.add_sub_cancel]
      conv_lhs => rw [show c.nextSequence = c.nextSequence - 1 + 1 by omega]
      exact (take_append_getElem hlt).symm
  · -- the answer to a login
    unfold Coming at hcoming
    rw [if_neg (by rw [hlog]; decide)] at hcoming
    obtain ⟨hparse, hserved⟩ :
        (∀ v, parseLoginAccepted f.payload = some v → v.sequence = c.nextSequence) ∧
          Served toClient (history.drop (c.nextSequence - 1)) (server = .Up ∧ broken = false) :=
      hcoming.cons.elim And.right fun hne => absurd hkind hne.1
    rw [hup', hnext, hparse v hv, hres, if_neg (by simp), append_nil]
    refine ⟨⟨hpos, hbound, ?_, fun hs => ?_⟩, rfl⟩
    · unfold Coming
      rw [if_pos rfl]
      exact hserved
    · exact absurd hkind ((h.waiting hs).1 f mem_cons_self).1
  · -- another frame
    rw [hnext, if_neg fun he => hres he.1 he.2, append_nil]
    have hwaiting : server = .LoggingOn → (∀ g ∈ toClient, Plain g) ∧
        ∀ g ∈ toServer, LoginFor (c.onFrame f).2.state c.nextSequence g := by
      intro hs
      obtain ⟨hplain, hlogin⟩ := h.waiting hs
      refine ⟨fun g hg => hplain g (mem_cons_of_mem f hg), fun g hg hk => ?_⟩
      obtain ⟨hup, hseq⟩ := hlogin g hg hk
      refine ⟨?_, hseq⟩
      rcases hstate with hdown | ⟨hsame, -⟩
      · rw [hdown]
        decide
      · rw [hsame]
        exact hup
    refine ⟨⟨hpos, hbound, ?_, hwaiting⟩, rfl⟩
    rcases hstate with hdown | ⟨hsame, haccept, hseq⟩
    · exact hcoming.down (by rw [hdown]; decide)
    rw [hsame]
    unfold Coming at hcoming ⊢
    split_ifs at hcoming with hup
    · rw [if_pos hup]
      exact hcoming.cons.elim (fun he => absurd he.1 hseq) And.right
    · rw [if_neg hup]
      exact hcoming.cons.elim (fun he => absurd he.1 haccept) And.right

end Agreed

/-! ## Logins -/

namespace ServerSession

variable {s : ServerSession} {w : Wire} {frames : List Frame} {buffer : Bytes}

/-- The messages stay as they are. -/
def Keeps (s s' : ServerSession) : Prop := s'.history = s.history ∧ s'.cfg = s.cfg

theorem Keeps.trans {s₁ s₂ s₃ : ServerSession} (h : Keeps s₁ s₂) (h' : Keeps s₂ s₃) :
    Keeps s₁ s₃ := ⟨h'.1.trans h.1, h'.2.trans h.2⟩

theorem write_keeps (s : ServerSession) (w : Wire) (bytes : Bytes) :
    Keeps s (s.write w bytes).2.1 :=
  have hw : Wrote bytes _ s w (s.write w bytes).2.1 _ := write_spec rfl
  ⟨hw.history, hw.cfg⟩

theorem writeData_keeps (s : ServerSession) (w : Wire) (type : UInt8) (msg : Bytes) :
    Keeps s (s.writeData type msg w).2.1 := by
  unfold writeData
  split
  · exact ⟨rfl, rfl⟩
  rename_i hdr _
  have hw := s.write_keeps w hdr
  split <;> rename_i s₁ w₁ hwrite <;> rw [hwrite] at hw
  · split
    · exact hw
    · exact hw.trans (s₁.write_keeps w₁ msg)
  · exact hw

theorem replay_keeps (msgs : List Bytes) (s : ServerSession) (w : Wire) :
    Keeps s (replay msgs s w).1 := by
  induction msgs generalizing s w with
  | nil => exact ⟨rfl, rfl⟩
  | cons msg msgs ih =>
    have hw := s.writeData_keeps w kSequencedData msg
    unfold replay
    split <;> rename_i s₁ w₁ hwrite <;> rw [hwrite] at hw
    · exact hw.trans (ih s₁ w₁)
    · exact hw

theorem accept_keeps (s : ServerSession) (v : LoginRequestView) (w : Wire) :
    Keeps s (s.accept v w).1 := by
  unfold accept
  dsimp only
  obtain ⟨s₁, heq, hkeeps⟩ : ∃ s₁ : ServerSession, (if v.heartbeatTimeoutMs ≠ 0 then
        { s with clientTimeoutNs := (v.heartbeatTimeoutMs : Int) * 1000000 } else s) = s₁ ∧
      Keeps s s₁ := by
    split <;> exact ⟨_, rfl, rfl, rfl⟩
  rw [heq]
  split
  · exact hkeeps
  rename_i bytes _
  have hw := hkeeps.trans (s₁.write_keeps w bytes)
  split <;> rename_i s₂ w₂ hwrite <;> rw [hwrite] at hw
  · exact hw.trans (replay_keeps _ { s₂ with state := .Up } w₂)
  · exact hw

/-- What of the history a login has sent again: all of it, unless the connection is lost. -/
theorem replay_spec {msgs : List Bytes} (hfits : ∀ msg ∈ msgs, msg.length ≤ kMaxPayload)
    (hup : s.state = .Up) (hc : Carries Frame.bytes Frame.Fits frames buffer w.bytes w.broken) :
    (replay msgs s w).1.state ≠ .LoggingOn ∧
      ∃ served, Carries Frame.bytes Frame.Fits (frames ++ served) buffer (replay msgs s w).2.bytes
          (replay msgs s w).2.broken ∧
        Served served msgs
          ((replay msgs s w).1.state = .Up ∧ (replay msgs s w).2.broken = false) := by
  induction msgs generalizing s w frames with
  | nil =>
    refine ⟨?_, [], ?_, ?_⟩
    · show s.state ≠ _
      rw [hup]
      decide
    · rw [append_nil]
      exact hc
    · exact ⟨fun f hf => absurd hf not_mem_nil, prefix_rfl, fun _ => rfl⟩
  | cons msg msgs ih =>
    have hmsg := hfits msg mem_cons_self
    obtain ⟨ok, s₁, w₁, hwrite⟩ : ∃ ok s₁ w₁, s.writeData kSequencedData msg w = (ok, s₁, w₁) :=
      ⟨_, _, _, rfl⟩
    have hw := writeData_spec hmsg hwrite
    have hc₁ := hw.sent.carries hc hmsg
    unfold replay
    rw [hwrite]
    cases ok with
    | true =>
      obtain ⟨hstate, served, hc₂, hserved⟩ :=
        ih (fun m hm => hfits m (mem_cons_of_mem msg hm)) (hw.state.trans hup) hc₁
      refine ⟨hstate, ⟨kSequencedData, msg⟩ :: served, ?_, ?_⟩
      · have hadded : added w ⟨kSequencedData, msg⟩ = [⟨kSequencedData, msg⟩] := by
          unfold added
          rw [(hw.sent.whole rfl).1, if_neg (by simp)]
        rw [hadded, append_assoc] at hc₂
        exact hc₂
      · exact hserved.push
    | false =>
      refine ⟨?_, added w ⟨kSequencedData, msg⟩, hc₁, ?_⟩
      · rw [hw.state]
        simp
      have hdown : s₁.state = .Down := hw.state
      refine ⟨fun g hg => ?_, ?_, fun hf => ?_⟩
      · rw [mem_added hg]
        show kSequencedData ≠ kLoginAccepted
        decide
      · unfold added
        split
        · exact nil_prefix
        · exact prefix_append [msg] msgs
      · exact absurd (hdown.symm.trans hf.1) (by simp)

/-- A frame is a login that the session accepts, or the session sends no message. -/
theorem onFrame_cases (s : ServerSession) (f : Frame) (w : Wire) :
    Routine s w (s.onFrame f w).1 (s.onFrame f w).2 ∨
      (f.kind = kLoginRequest ∧ s.state = .LoggingOn ∧
        ∃ v, parseLoginRequest f.payload = some v ∧
          s.onFrame f w = { s with rxActivity := true }.accept v w) := by
  have hsame : Routine s w { s with rxActivity := true } w := ⟨rfl, rfl, .inl rfl, .inl rfl⟩
  unfold onFrame
  dsimp only
  split
  · rename_i hlogin
    unfold onLogin
    cases hparse : parseLoginRequest f.payload with
    | none => exact .inl (routine_close hsame _)
    | some v =>
      dsimp only
      split
      · exact .inl (routine_close hsame _)
      rename_i hstate
      split
      · exact .inl (routine_reject.of rfl rfl rfl)
      · split
        · exact .inl (routine_reject.of rfl rfl rfl)
        · exact .inr ⟨hlogin, not_not.mp hstate, v, rfl, rfl⟩
  · split
    · exact .inl hsame
    split
    · refine .inl ?_
      split
      · exact routine_close hsame _
      · exact hsame
    · split
      · exact .inl (routine_close hsame _)
      · exact .inl (routine_close hsame _)

/-- A login that is accepted gets the messages from the one it asks for. -/
theorem accept_spec {client : SessionState} {n : Nat} {toServer : List Frame}
    {v : LoginRequestView} (hseq : v.sequence = n) (hn : n ≤ 18446744073709551615)
    (hfits : ∀ msg ∈ s.history, msg.length ≤ kMaxPayload) (hs : s.state = .LoggingOn)
    (hclient : client ≠ .Up) (hc : Carries Frame.bytes Frame.Fits frames buffer w.bytes w.broken)
    (h : Agreed client n s.state s.history w.broken frames toServer) :
    ∃ frames', Carries Frame.bytes Frame.Fits frames' buffer (s.accept v w).2.bytes
        (s.accept v w).2.broken ∧
      Agreed client n (s.accept v w).1.state s.history (s.accept v w).2.broken frames'
        toServer := by
  have hfirst : s.firstFor v.sequence = n := by
    have := h.pos
    have := h.bound
    unfold firstFor
    rw [hseq, if_neg (by omega)]
  unfold accept
  dsimp only
  rw [hfirst]
  obtain ⟨s₁, heq, hhistory, hstate⟩ : ∃ s₁ : ServerSession, (if v.heartbeatTimeoutMs ≠ 0 then
        { s with clientTimeoutNs := (v.heartbeatTimeoutMs : Int) * 1000000 } else s) = s₁ ∧
      s₁.history = s.history ∧ s₁.state = s.state := by
    split <;> exact ⟨_, rfl, rfl, rfl⟩
  rw [heq]
  cases haccept : writeLoginAccepted s₁.cfg.session n with
  | none =>
    refine ⟨frames, hc, ?_⟩
    rw [hstate]
    exact h
  | some bytes =>
    obtain ⟨f, rfl, hkind, hffits, hparse⟩ := writeLoginAccepted_eq haccept hn
    obtain ⟨ok, s₂, w₂, hwrite⟩ : ∃ ok s₂ w₂, s₁.write w f.bytes = (ok, s₂, w₂) :=
      ⟨_, _, _, rfl⟩
    have hw := write_spec hwrite
    have hc₁ := hw.sent.carries hc hffits
    rw [hs] at h
    dsimp only
    rw [hwrite]
    cases ok with
    | true =>
      have hdue : ∀ msg ∈ s₂.history.drop (n - 1), msg.length ≤ kMaxPayload := by
        intro msg hm
        rw [hw.history, hhistory] at hm
        exact hfits msg (mem_of_mem_drop hm)
      obtain ⟨hstate', served, hc₂, hserved⟩ :=
        replay_spec (s := { s₂ with state := .Up }) hdue rfl hc₁
      refine ⟨_, hc₂, ?_⟩
      have hadded : added w f = [f] := by
        unfold added
        rw [(hw.sent.whole rfl).1, if_neg (by simp)]
      rw [hadded, append_assoc, singleton_append]
      refine h.accepted hclient hkind hparse hstate' ?_
      rw [show s.history = s₂.history from (hw.history.trans hhistory).symm]
      exact hserved
    | false =>
      have hdown : s₂.state = .Down := hw.state
      refine ⟨_, hc₁, ?_⟩
      show Agreed client n s₂.state s.history w₂.broken (frames ++ added w f) toServer
      rw [hdown]
      unfold added
      split
      · refine h.serverSends (.inr rfl) (fun hopen => ?_) (.inl rfl)
        exact absurd (hw.sent.broken.symm.trans hopen) (by simp)
      · refine h.accepted hclient hkind hparse (by decide) ?_
        exact ⟨fun f hf => absurd hf not_mem_nil, nil_prefix,
          fun hf => absurd hf.1 (by simp)⟩

end ServerSession

/-! ## Links -/

/-- The client's handler has been told of the messages before the next one; the history has
room for its messages, and a sequence number for each. -/
structure Recorded (told : List Bytes) (n : Nat) (s : ServerSession) : Prop where
  told : told = s.history.take (n - 1)
  fits : ∀ msg ∈ s.history, msg.length ≤ kMaxPayload
  room : s.history.length ≤ s.cfg.historyMessages
  counted : s.cfg.historyMessages + 1 < 18446744073709551616

theorem Recorded.of {told : List Bytes} {n : Nat} {s s' : ServerSession} (h : Recorded told n s)
    (hhistory : s'.history = s.history) (hcfg : s'.cfg = s.cfg) : Recorded told n s' := by
  refine ⟨?_, ?_, ?_, ?_⟩
  · rw [hhistory]
    exact h.told
  · rw [hhistory]
    exact h.fits
  · rw [hhistory, hcfg]
    exact h.room
  · rw [hcfg]
    exact h.counted

/-- The frames on their way, and what the two ends make of them. -/
structure Sound (l : Link) (toClient toServer : List Frame) : Prop where
  carriesClient :
    Carries Frame.bytes Frame.Fits toClient l.clientBuffer l.toClient.bytes l.toClient.broken
  carriesServer :
    Carries Frame.bytes Frame.Fits toServer l.serverBuffer l.toServer.bytes l.toServer.broken
  agreed : Agreed l.client.state l.client.nextSequence l.server.state l.server.history
    l.toClient.broken toClient toServer
  recorded : Recorded l.told l.client.nextSequence l.server

namespace Sound

variable {l : Link} {toClient toServer : List Frame}

theorem start {cc : ClientConfig} {sc : ServerConfig} (hc : cc.sequence = 1)
    (hs : sc.historyMessages + 1 < 18446744073709551616) : Sound (Link.start cc sc) [] [] := by
  have hnext : (Link.start cc sc).client.nextSequence = 1 := hc
  refine ⟨Carries.empty true, Carries.empty true, ?_, ?_⟩
  · rw [hnext]
    refine ⟨Nat.le_refl 1, Nat.le_add_left 1 _, .inl fun f hf => absurd hf not_mem_nil, ?_⟩
    exact fun he => absurd he (by simp [Link.start, ServerSession.create])
  · rw [hnext]
    exact ⟨rfl, fun msg hm => absurd hm not_mem_nil, Nat.zero_le _, hs⟩

section

variable (h : Sound l toClient toServer)
include h

theorem next_le : l.client.nextSequence ≤ 18446744073709551615 := by
  have := h.agreed.bound
  have := h.recorded.room
  have := h.recorded.counted
  omega

theorem withClient {r : ClientSession × Wire}
    (hr : l.client.Routine l.toServer r.1 r.2) :
    ∃ toServer', Sound (l.withClient r) toClient toServer' := by
  have hagreed := h.agreed
  rw [← hr.next] at hagreed
  have hrecorded : Recorded l.told r.1.nextSequence l.server := by
    rw [hr.next]
    exact h.recorded
  rcases hr.sends with heq | ⟨f, ok, hlogin, hfits, hsent⟩
  · refine ⟨toServer, h.carriesClient, ?_, ?_, hrecorded⟩
    · show Carries _ _ _ l.serverBuffer r.2.bytes r.2.broken
      rw [heq]
      exact h.carriesServer
    · rw [← append_nil toServer]
      exact hagreed.clientSends hr.state fun f hf => absurd hf not_mem_nil
  · refine ⟨_, h.carriesClient, hsent.carries h.carriesServer hfits, ?_, hrecorded⟩
    refine hagreed.clientSends hr.state fun g hg => ?_
    rw [mem_added hg, hr.next]
    exact hlogin

theorem withServer {r : ServerSession × Wire}
    (hr : l.server.Routine l.toClient r.1 r.2) :
    ∃ toClient', Sound (l.withServer r) toClient' toServer := by
  have hrecorded : Recorded l.told l.client.nextSequence r.1 := h.recorded.of hr.history hr.cfg
  have hagreed := h.agreed
  rw [← hr.history] at hagreed
  rcases hr.sends with heq | ⟨f, ok, hplain, hffits, hsent⟩
  · refine ⟨toClient, ?_, h.carriesServer, ?_, hrecorded⟩
    · show Carries _ _ _ l.clientBuffer r.2.bytes r.2.broken
      rw [heq]
      exact h.carriesClient
    · have hbroken : r.2.broken = false → l.toClient.broken = false := by
        rw [heq]
        exact id
      rw [← append_nil toClient]
      exact hagreed.serverSends hr.state hbroken (.inl rfl)
  · refine ⟨_, hsent.carries h.carriesClient hffits, h.carriesServer, ?_, hrecorded⟩
    refine hagreed.serverSends hr.state (fun hopen => ?_) ?_
    · have hok : (!ok) = false := hsent.broken.symm.trans hopen
      exact (hsent.whole (by simpa using hok)).1
    unfold added
    split
    · exact .inl rfl
    · exact .inr ⟨f, hplain, rfl⟩

theorem connect
    (nowNs : Int) (clientRoom clientLeft serverRoom serverLeft : Nat) :
    Sound (l.step (.connect nowNs clientRoom clientLeft serverRoom serverLeft)) [] [] where
  carriesClient := Carries.empty false
  carriesServer := Carries.empty false
  agreed := Agreed.connect h.agreed.pos h.agreed.bound l.client.state
  recorded := h.recorded.of rfl rfl

theorem clientFrame :
    ∃ toClient', Sound l.clientFrame toClient' toServer := by
  unfold Link.clientFrame
  rcases h.carriesClient.next_eq framing with hnone | ⟨f, frames, rest, rfl, hnext, hc⟩
  · rw [hnone]
    exact ⟨toClient, h⟩
  obtain ⟨hagreed, htake⟩ := h.agreed.clientTakes
  obtain ⟨res, c, hres⟩ : ∃ res c, l.client.onFrame f = (res, c) := ⟨_, _, rfl⟩
  have htold := h.recorded.told
  unfold Agreed.handed at htake
  rw [hres] at hagreed htake
  rw [hnext]
  dsimp only
  rw [hres]
  cases res with
  | true =>
    rw [if_neg (by simp), append_nil] at htake
    exact ⟨frames, hc, h.carriesServer, hagreed, htold.trans htake.symm, h.recorded.fits,
      h.recorded.room, h.recorded.counted⟩
  | false =>
    refine ⟨frames, hc, h.carriesServer, hagreed, ?_, h.recorded.fits, h.recorded.room,
      h.recorded.counted⟩
    refine Eq.trans ?_ htake.symm
    rw [htold]
    by_cases hkind : f.kind = kSequencedData
    · rw [if_pos hkind, if_pos ⟨rfl, hkind⟩]
    · rw [if_neg hkind, if_neg fun he => hkind he.2, append_nil]

theorem serverFrame :
    ∃ toClient' toServer', Sound l.serverFrame toClient' toServer' := by
  unfold Link.serverFrame
  rcases h.carriesServer.next_eq framing with hnone | ⟨f, frames, rest, rfl, hnext, hc⟩
  · rw [hnone]
    exact ⟨toClient, toServer, h⟩
  rw [hnext]
  have htaken : Sound { l with serverBuffer := rest } toClient frames :=
    ⟨h.carriesClient, hc, h.agreed.serverTakes, h.recorded⟩
  rcases l.server.onFrame_cases f l.toClient with hroutine | ⟨hkind, hstate, v, hv, heq⟩
  · obtain ⟨toClient', hsound⟩ := htaken.withServer hroutine
    exact ⟨toClient', frames, hsound⟩
  obtain ⟨hup, hseq⟩ := (h.agreed.waiting hstate).2 f mem_cons_self hkind
  obtain ⟨hhistory, hcfg⟩ := accept_keeps { l.server with rxActivity := true } v l.toClient
  obtain ⟨toClient', hc', hagreed⟩ :=
    accept_spec (s := { l.server with rxActivity := true }) (hseq v hv) h.next_le
      h.recorded.fits hstate hup h.carriesClient htaken.agreed
  dsimp only
  rw [heq]
  refine ⟨toClient', frames, hc', hc, ?_, h.recorded.of hhistory hcfg⟩
  show Agreed _ _ _ (ServerSession.accept _ v l.toClient).1.history _ _ _
  rw [hhistory]
  exact hagreed

theorem sendSequenced (msg : Bytes) :
    ∃ toClient', Sound (l.step (.sendSequenced msg)) toClient' toServer := by
  show ∃ toClient', Sound (l.withServer (l.server.sendSequenced msg l.toClient).2) toClient' _
  unfold ServerSession.sendSequenced
  split_ifs with hroom
  · exact ⟨toClient, h⟩
  have hsize : msg.length ≤ kMaxPayload := by omega
  have hcount : l.server.history.length + 1 ≤ l.server.cfg.historyMessages := by omega
  have hrecorded : Recorded l.told l.client.nextSequence
      { l.server with history := l.server.history ++ [msg] } := by
    refine ⟨?_, fun m hm => ?_, ?_, h.recorded.counted⟩
    · have := h.agreed.bound
      exact h.recorded.told.trans (take_append_of_le_length (by omega)).symm
    · exact (mem_append.mp hm).elim (h.recorded.fits m) fun hm =>
        mem_singleton.mp hm ▸ hsize
    · simpa using hcount
  dsimp only
  split_ifs with hup
  · obtain ⟨ok, s, w, hwrite⟩ : ∃ ok s w,
        ({ l.server with history := l.server.history ++ [msg] } : ServerSession).writeData
          kSequencedData msg l.toClient = (ok, s, w) := ⟨_, _, _, rfl⟩
    have hw := writeData_spec hsize hwrite
    have hhistory : s.history = l.server.history ++ [msg] := hw.history
    have hstate : s.state = if ok then l.server.state else .Down := hw.state
    rw [hwrite]
    refine ⟨_, hw.sent.carries h.carriesClient hsize, h.carriesServer, ?_,
      hrecorded.of hw.history hw.cfg⟩
    show Agreed l.client.state l.client.nextSequence s.state s.history w.broken _ toServer
    have hagreed := h.agreed
    unfold added
    rw [hhistory]
    split
    · rename_i hbroken
      refine (hagreed.kept fun he => ?_).serverSends ?_ (fun hopen => ?_) (.inl rfl)
      · exact absurd (hbroken.symm.trans he.2) (by simp)
      · rw [hstate]
        split
        · exact .inl rfl
        · exact .inr rfl
      · have hok : (!ok) = false := hw.sent.broken.symm.trans hopen
        exact (hw.sent.whole (by simpa using hok)).1
    · rename_i hopen
      rw [hup, Bool.eq_false_iff.mpr hopen] at hagreed
      refine hagreed.sequenced ?_
      rw [hstate, hup]
      cases ok <;> simp
  · exact ⟨toClient, h.carriesClient, h.carriesServer, h.agreed.kept fun he => hup he.1, hrecorded⟩

/-- Every step keeps the link sound. -/
theorem step (op : Op) :
    ∃ toClient' toServer', Sound (l.step op) toClient' toServer' := by
  cases op with
  | connect nowNs clientRoom clientLeft serverRoom serverLeft =>
    exact ⟨[], [], h.connect nowNs clientRoom clientLeft serverRoom serverLeft⟩
  | arriveClient n =>
    exact ⟨toClient, toServer, h.carriesClient.arrive n, h.carriesServer, h.agreed, h.recorded⟩
  | arriveServer n =>
    exact ⟨toClient, toServer, h.carriesClient, h.carriesServer.arrive n, h.agreed, h.recorded⟩
  | clientFrame =>
    obtain ⟨toClient', hsound⟩ := h.clientFrame
    exact ⟨toClient', toServer, hsound⟩
  | serverFrame => exact h.serverFrame
  | login nowNs => exact ⟨toClient, h.withClient (routine_login h.next_le nowNs)⟩
  | clientTimer nowNs => exact ⟨toClient, h.withClient (routine_onTimer nowNs)⟩
  | clientSend msg => exact ⟨toClient, h.withClient routine_send⟩
  | logout => exact ⟨toClient, h.withClient routine_logout⟩
  | clientDisconnect =>
    exact ⟨toClient, h.withClient (r := (l.client.onDisconnect, l.toServer)) routine_onDisconnect⟩
  | serverTimer nowNs =>
    obtain ⟨toClient', hsound⟩ := h.withServer (routine_onTimer nowNs)
    exact ⟨toClient', toServer, hsound⟩
  | sendSequenced msg =>
    obtain ⟨toClient', hsound⟩ := h.sendSequenced msg
    exact ⟨toClient', toServer, hsound⟩
  | sendUnsequenced msg =>
    obtain ⟨toClient', hsound⟩ := h.withServer (@routine_sendUnsequenced _ _ msg)
    exact ⟨toClient', toServer, hsound⟩
  | sendDebug text =>
    obtain ⟨toClient', hsound⟩ := h.withServer (@routine_writeData _ _ kDebug text (by decide))
    exact ⟨toClient', toServer, hsound⟩
  | endSession =>
    obtain ⟨toClient', hsound⟩ := h.withServer routine_endSession
    exact ⟨toClient', toServer, hsound⟩
  | serverDisconnect =>
    obtain ⟨toClient', hsound⟩ := h.withServer (r := (l.server.onDisconnect, l.toClient))
      routine_onDisconnect
    exact ⟨toClient', toServer, hsound⟩

theorem run (ops : List Op) :
    ∃ toClient' toServer', Sound (l.run ops) toClient' toServer' := by
  induction ops generalizing l toClient toServer with
  | nil => exact ⟨toClient, toServer, h⟩
  | cons op ops ih =>
    obtain ⟨toClient', toServer', hstep⟩ := h.step op
    exact ih hstep

end

end Sound

/-! ## What the server has sent -/

namespace Link

theorem serverFrame_keeps (l : Link) : ServerSession.Keeps l.server l.serverFrame.server := by
  unfold serverFrame
  split
  · exact ⟨rfl, rfl⟩
  rename_i f rest _
  rcases l.server.onFrame_cases f l.toClient with hroutine | ⟨-, -, v, -, heq⟩
  · exact ⟨hroutine.history, hroutine.cfg⟩
  · rw [heq]
    exact accept_keeps { l.server with rxActivity := true } v l.toClient

/-- A message that has room is in the history, whatever becomes of its frame. -/
theorem sendSequenced_history {s : ServerSession} {w : Wire} {msg : Bytes}
    (hsize : msg.length ≤ kMaxPayload) (hcount : s.history.length < s.cfg.historyMessages)
    (hbytes : s.history.flatten.length + msg.length ≤ s.cfg.historyBytes) :
    (s.sendSequenced msg w).2.1.history = s.history ++ [msg] ∧
      (s.sendSequenced msg w).2.1.cfg = s.cfg := by
  unfold sendSequenced
  rw [if_neg (by omega)]
  dsimp only
  split
  · exact writeData_keeps { s with history := s.history ++ [msg] } w kSequencedData msg
  · exact ⟨rfl, rfl⟩

/-- A message too large for a packet is not. -/
theorem sendSequenced_large {s : ServerSession} {w : Wire} {msg : Bytes}
    (hsize : ¬ msg.length ≤ kMaxPayload) : s.sendSequenced msg w = (false, s, w) := by
  unfold sendSequenced
  rw [if_pos (.inl (by omega))]

/-- The other steps keep the history. -/
theorem step_keeps (l : Link) {op : Op} (h : ∀ msg, op ≠ .sendSequenced msg) :
    ServerSession.Keeps l.server (l.step op).server := by
  cases op with
  | serverFrame => exact l.serverFrame_keeps
  | clientFrame =>
    show ServerSession.Keeps l.server l.clientFrame.server
    unfold clientFrame
    split
    · exact ⟨rfl, rfl⟩
    · split <;> exact ⟨rfl, rfl⟩
  | sendSequenced msg => exact absurd rfl (h msg)
  | serverTimer nowNs =>
    have hs := routine_onTimer (s := l.server) (w := l.toClient) nowNs
    exact ⟨hs.history, hs.cfg⟩
  | sendUnsequenced msg =>
    have hs := @routine_sendUnsequenced l.server l.toClient msg
    exact ⟨hs.history, hs.cfg⟩
  | sendDebug text => exact l.server.writeData_keeps l.toClient kDebug text
  | endSession =>
    have hs := routine_endSession (s := l.server) (w := l.toClient)
    exact ⟨hs.history, hs.cfg⟩
  | serverDisconnect =>
    have hs := routine_onDisconnect (s := l.server) (w := l.toClient)
    exact ⟨hs.history, hs.cfg⟩
  | _ => exact ⟨rfl, rfl⟩

/-- With enough history it has every message that was sent. -/
theorem run_history (l : Link) (ops : List Op)
    (hcount : l.server.history.length + (sequencedMsgs ops).length ≤ l.server.cfg.historyMessages)
    (hbytes : l.server.history.flatten.length + (sequencedMsgs ops).flatten.length ≤
      l.server.cfg.historyBytes) :
    (l.run ops).server.history = l.server.history ++ sequencedMsgs ops := by
  induction ops generalizing l with
  | nil => exact (append_nil _).symm
  | cons op ops ih =>
    show ((l.step op).run ops).server.history = _
    by_cases hseq : ∃ msg, op = .sendSequenced msg ∧ msg.length ≤ kMaxPayload
    · obtain ⟨msg, rfl, hsize⟩ := hseq
      have hcons : sequencedMsgs (.sendSequenced msg :: ops) = msg :: sequencedMsgs ops := by
        unfold sequencedMsgs
        rw [filterMap_cons_some (b := msg) (by simp only [if_pos hsize])]
      rw [hcons] at hcount hbytes ⊢
      rw [length_cons] at hcount
      rw [flatten_cons, length_append] at hbytes
      obtain ⟨hhistory, hcfg⟩ : (l.step (.sendSequenced msg)).server.history =
          l.server.history ++ [msg] ∧ (l.step (.sendSequenced msg)).server.cfg = l.server.cfg :=
        sendSequenced_history hsize (by omega) (by omega)
      rw [ih (l.step (.sendSequenced msg)), hhistory, append_assoc]
      · rfl
      · rw [hhistory, hcfg, length_append, length_singleton]
        omega
      · rw [hhistory, hcfg, flatten_append, length_append]
        simp only [flatten_cons, flatten_nil, append_nil]
        omega
    · have hnone : sequencedMsgs (op :: ops) = sequencedMsgs ops := by
        unfold sequencedMsgs
        cases op with
        | sendSequenced msg =>
          rw [filterMap_cons_none]
          exact if_neg fun hsize => hseq ⟨msg, rfl, hsize⟩
        | _ => rfl
      have hkeeps : ServerSession.Keeps l.server (l.step op).server := by
        by_cases hop : ∃ msg, op = .sendSequenced msg
        · obtain ⟨msg, rfl⟩ := hop
          show ServerSession.Keeps l.server (l.server.sendSequenced msg l.toClient).2.1
          rw [sendSequenced_large fun hsize => hseq ⟨msg, rfl, hsize⟩]
          exact ⟨rfl, rfl⟩
        · exact l.step_keeps fun msg he => hop ⟨msg, he⟩
      obtain ⟨hhistory, hcfg⟩ := hkeeps
      rw [hnone] at hcount hbytes ⊢
      rw [ih (l.step op), hhistory]
      · rw [hhistory, hcfg]
        exact hcount
      · rw [hhistory, hcfg]
        exact hbytes

end Link

/-! ## Resumption -/

/-- Whatever is lost and however often the client logs in again, its handler is told the
messages of the session in order, from the first and each once, and the client counts them. -/
theorem resumes_without_loss (cc : ClientConfig) (sc : ServerConfig) (ops : List Op)
    (hfirst : cc.sequence = 1) (hcounted : sc.historyMessages + 1 < 18446744073709551616)
    (henough : EnoughHistory sc ops) :
    ((Link.start cc sc).run ops).told <+: sequencedMsgs ops ∧
      ((Link.start cc sc).run ops).client.nextSequence =
        ((Link.start cc sc).run ops).told.length + 1 := by
  obtain ⟨toClient, toServer, hsound⟩ := (Sound.start hfirst hcounted).run ops
  have hhistory : ((Link.start cc sc).run ops).server.history = sequencedMsgs ops := by
    refine (Link.run_history (Link.start cc sc) ops ?_ ?_).trans (nil_append _)
    · show 0 + _ ≤ sc.historyMessages
      rw [Nat.zero_add]
      exact henough.1
    · show 0 + _ ≤ sc.historyBytes
      rw [Nat.zero_add]
      exact henough.2
  have htold := hsound.recorded.told
  have hpos := hsound.agreed.pos
  have hbound := hsound.agreed.bound
  refine ⟨?_, ?_⟩
  · rw [htold, hhistory]
    exact take_prefix _ _
  · rw [htold, length_take]
    omega

/-- The second message is lost in the middle of its packet, and sent again at the next login. -/
def lostAndResumed : List Op :=
  [.connect 0 9 0 9 0, .sendSequenced [1], .login 0, .arriveServer 99, .serverFrame,
    .arriveClient 99, .clientFrame, .clientFrame, .sendSequenced [2], .arriveClient 3,
    .clientFrame, .clientDisconnect, .connect 1 9 0 9 0, .login 1, .arriveServer 99, .serverFrame,
    .sendSequenced [3], .arriveClient 99, .clientFrame, .clientFrame, .clientFrame]

theorem resumes_lostAndResumed :
    let cc : ClientConfig := { username := [97], password := [98] }
    let sc : ServerConfig := { username := [65], password := [66] }
    ((Link.start cc sc).run lostAndResumed).told = [[1], [2], [3]] ∧
      ((Link.start cc sc).run lostAndResumed).told <+: sequencedMsgs lostAndResumed ∧
      ((Link.start cc sc).run lostAndResumed).client.nextSequence =
        ((Link.start cc sc).run lostAndResumed).told.length + 1 :=
  ⟨by decide +kernel, resumes_without_loss _ _ lostAndResumed rfl (by decide)
    ⟨by decide, by decide⟩⟩

end FastMM.Soup
