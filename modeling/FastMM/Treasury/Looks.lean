/-
  Treasury/Looks.lean --- what the driver does fits the ledger it saved.

  One lemma for each function of the driver, about the transfers in memory, those in the saved
  ledger, and the log; from them, every history of processes leaves a log of the kind
  `Treasury/WriteAhead.lean` is about.
-/
import FastMM.Treasury.WriteAhead
set_option autoImplicit false

namespace FastMM.Treasury

open Foundation List TreasuryLimiter

theorem saved_saved (l : TreasuryLedger) : l.saved.saved = l.saved := by
  unfold TreasuryLedger.saved
  rw [map_map]
  rfl

/-- A running treasury with the transfers `mem`, over a saved ledger with the transfers `file`. -/
structure Stands (cfg : TreasuryConfig) (clock : Int) (m : Running)
    (mem file : List TreasuryTransfer) : Prop where
  legal : Legal cfg clock m.log
  inMemory : m.inFlight = mem
  inFile : (disk m.log).inFlight = file
  seq : m.treasury.ledger.seq = (disk m.log).seq
  lastSent : m.treasury.ledger.limiter.lastSentNs = (disk m.log).limiter.lastSentNs
  sent : ∃ old, (disk m.log).limiter.sent = old ++ m.treasury.ledger.limiter.sent ∧
    (∀ x ∈ old, x ≤ clock - kHourNs) ∧ (file ≠ [] → old = [])

/-- A treasury between two calls. -/
inductive Rests (cfg : TreasuryConfig) (clock : Int) (m : Running) : Prop where
  | busy {t : TreasuryTransfer} (h : Stands cfg clock m [t] [t.saved])
  | idle (h : Stands cfg clock m [] [])

namespace Stands

variable {cfg : TreasuryConfig} {clock now : Int} {m : Running}
  {mem file : List TreasuryTransfer} {t u : TreasuryTransfer}
variable {look : Look}

section

variable (h : Stands cfg clock m mem file)
include h

theorem advance (hle : clock ≤ now) :
    Stands cfg now m mem file := by
  obtain ⟨old, hold, hpast, hnone⟩ := h.sent
  exact { h with
    legal := h.legal.advance hle
    sent := ⟨old, hold, fun x hx => by have := hpast x hx; omega, hnone⟩ }

/-- An effect that leaves the saved ledger as it is. -/
theorem emit {e : Effect} (hfits : Fits cfg clock m.log e)
    (hdisk : (disk m.log).after e = disk m.log) : Stands cfg clock (m.emit e) mem file := by
  have hsame : disk (m.emit e).log = disk m.log := (disk_snoc m.log e).trans hdisk
  constructor
  case legal => exact h.legal.snoc hfits
  case inMemory => exact h.inMemory
  case inFile => rw [hsame, h.inFile]
  case seq => rw [hsame, ← h.seq]; rfl
  case lastSent => rw [hsame, ← h.lastSent]; rfl
  case sent => rw [hsame]; exact h.sent

theorem record (kind : TreasuryEventKind) (t : TreasuryTransfer)
    (r : Option TransferResult) : Stands cfg clock (m.record cfg kind t r) mem file :=
  h.emit (.record _) rfl

theorem refresh (account : VenueId) :
    Stands cfg clock (m.emit (.refresh account)) mem file := h.emit (.refresh _) rfl

/-- A change of what the ledger does not have. -/
theorem update {f : Treasury → Treasury}
    (hf : (f m.treasury).ledger = m.treasury.ledger) : Stands cfg clock (m.update f) mem file where
  legal := h.legal
  inMemory := (congrArg TreasuryLedger.inFlight hf).trans h.inMemory
  inFile := h.inFile
  seq := (congrArg TreasuryLedger.seq hf).trans h.seq
  lastSent := (congrArg (fun l => l.limiter.lastSentNs) hf).trans h.lastSent
  sent := by
    have hsame : ((m.update f).treasury).ledger = m.treasury.ledger := hf
    rw [hsame]
    exact h.sent

theorem coolDown (nowNs : Int) :
    Stands cfg clock (m.coolDown cfg nowNs) mem file where
  __ := h

end

theorem setTransfer (h : Stands cfg clock m [t] file) (t' : TreasuryTransfer) :
    Stands cfg clock (m.setTransfer 0 t') [t'] file where
  legal := h.legal
  inMemory := by
    show m.inFlight.set 0 t' = [t']
    rw [h.inMemory]
    rfl
  inFile := h.inFile
  seq := h.seq
  lastSent := h.lastSent
  sent := h.sent

theorem erase (h : Stands cfg clock m [t] file) : Stands cfg clock (m.erase 0) [] file where
  legal := h.legal
  inMemory := by
    show m.inFlight.eraseIdx 0 = []
    rw [h.inMemory]
    rfl
  inFile := h.inFile
  seq := h.seq
  lastSent := h.lastSent
  sent := h.sent

/-- The counters are those of the saved ledger while it has a transfer. -/
theorem counters (h : Stands cfg clock m mem file) (hne : file ≠ []) :
    SameCounters (disk m.log) m.treasury.ledger.saved := by
  obtain ⟨old, hold, -, hnone⟩ := h.sent
  rw [hnone hne, nil_append] at hold
  exact ⟨h.seq, hold.symm, h.lastSent⟩

/-- What is saved is what is in memory. -/
theorem persist_of_fits (hlegal : Legal cfg clock m.log) (hmem : m.inFlight = mem)
    (hfits : Fits cfg clock m.log (.save m.treasury.ledger.saved)) :
    Stands cfg clock m.persist mem (mem.map TreasuryTransfer.saved) := by
  have hdisk : disk m.persist.log = m.treasury.ledger.saved := disk_snoc m.log _
  constructor
  case legal => exact hlegal.snoc hfits
  case inMemory => exact hmem
  case inFile =>
    rw [hdisk, ← hmem]
    rfl
  case seq => rw [hdisk]; rfl
  case lastSent => rw [hdisk]; rfl
  case sent =>
    rw [hdisk]
    exact ⟨[], rfl, fun _ hx => absurd hx not_mem_nil, fun _ => rfl⟩

/-- The transfer in flight, saved again. -/
theorem persist (h : Stands cfg clock m [t] [u]) (hsame : SameTransfer u t)
    (hphase : t.phase = .reserving → u.phase = .reserving) :
    Stands cfg clock m.persist [t] [t.saved] := by
  have hsaved : SameTransfer u t.saved := hsame.trans ⟨rfl, rfl, rfl⟩
  refine persist_of_fits h.legal h.inMemory
    (.onward (saved_saved _) (h.counters (cons_ne_nil _ _)) h.inFile ?_ hsaved hphase)
  show m.inFlight.map _ = _
  rw [h.inMemory]
  rfl

/-- The transfer that was in flight, saved no more. -/
theorem persist_gone (h : Stands cfg clock m [] [u])
    (hout : u.phase = .reserving ∨ Evidence cfg m.log u) : Stands cfg clock m.persist [] [] := by
  refine persist_of_fits h.legal h.inMemory
    (.gone (saved_saved _) (h.counters (cons_ne_nil _ _)) h.inFile ?_ hout)
  show m.inFlight.map _ = _
  rw [h.inMemory]
  rfl

/-! ## Answers -/

/-- A resolved transfer leaves the ledger. -/
theorem finish (h : Stands cfg clock m [t] [u]) (hout : u.phase = .reserving ∨ Evidence cfg m.log u)
    (state : TransferState) (r : TransferResult) (look : Look) :
    Stands cfg clock (m.finish cfg 0 state r look) [] [] := by
  unfold Running.finish
  rw [h.inMemory]
  dsimp only [getElem?_cons_zero]
  split_ifs with hdone
  · refine (persist_gone (((h.erase.update rfl).refresh _).refresh _) ?_).record _ _ _
    exact hout.imp_right fun hev =>
      (hev.mono (prefix_append _ _)).mono (prefix_append _ _)
  · exact (persist_gone ((h.erase.update rfl).coolDown _) hout).record _ _ _

/-- A hold given back. -/
theorem release (h : Stands cfg clock m [t] [u]) (hres : u.phase = .reserving) :
    Stands cfg clock (m.release cfg 0 t) [] [] :=
  (persist_gone (h.erase.update rfl) (.inl hres)).record _ _ _

/-- The request goes out once the ledger has it. -/
theorem submit (hnow : look.nowNs = clock) (port : TreasuryPort)
    (hmem : m.inFlight = [t]) (hfresh : ∀ a ∈ submits m.log, a.req.clientId ≠ t.req.clientId)
    (hproper : Proper cfg look t t.req.amount)
    (hsaved : ∀ s, s.req = t.req → s.seq = t.seq → s.createdNs = t.createdNs →
      s.phase ≠ .reserving → Stands cfg clock (m.setTransfer 0 s).persist [s] [s.saved]) :
    Rests cfg clock (m.submit cfg 0 look port) := by
  unfold Running.submit
  rw [hmem]
  dsimp -zeta only [getElem?_cons_zero]
  extract_lets s m₁ m₂ r m₃ m₄
  have h₁ : Stands cfg clock m₁ [s] [s.saved] := hsaved s rfl rfl rfl nofun
  have h₂ : Stands cfg clock m₂ [s] [s.saved] := h₁.update rfl
  have hnone : ∀ a ∈ submits m₂.log, a.req.clientId ≠ s.saved.req.clientId := by
    have hlog : submits m₂.log = submits m.log := by
      show submits (m.log ++ _) = _
      rw [submits_append]
      exact append_nil _
    rw [hlog]
    exact hfresh
  have hask : Fits cfg clock m₂.log (.submit look s.saved.req r) :=
    .submit hnow h₂.inFile nofun hnone (hproper.same ⟨rfl, rfl, rfl⟩) r
  have h₃ : Stands cfg clock m₃ [s] [s.saved] := (h₂.emit hask rfl).record _ _ _
  have hout (hr : r.state = .done ∨ r.state = .failed) :
      s.saved.phase = .reserving ∨ Evidence cfg m₃.log s.saved := by
    refine .inr (.answered (a := ⟨look, s.req, r⟩) (.inl ?_) rfl hr)
    show _ ∈ submits (m₂.log ++ _ ++ _)
    rw [submits_append, submits_append]
    exact mem_append_left _ (mem_append_right _ (mem_singleton_self _))
  split
  · rename_i hr
    exact .idle (h₃.finish (hout (.inl hr)) _ _ _)
  · rename_i hr
    exact .idle (h₃.finish (hout (.inr hr)) _ _ _)
  · exact .busy ((h₃.setTransfer _).persist ⟨rfl, rfl, rfl⟩ nofun)
  · exact .busy (((h₃.update rfl).setTransfer _).persist ⟨rfl, rfl, rfl⟩ nofun)
  · exact .busy (((h₃.update rfl).setTransfer _).persist ⟨rfl, rfl, rfl⟩ nofun)

section

variable (h : Stands cfg clock m [t] [t.saved])
include h

/-- An answer that leaves a transfer in flight. -/
theorem timeOut (r : TransferResult) (look : Look) :
    Rests cfg clock (m.timeOut cfg 0 t r look) := by
  unfold Running.timeOut
  split_ifs with hlate
  · refine .busy (t := { t with timedOut := true }) (record ?_ _ _ _)
    exact persist (coolDown (update (h.setTransfer _) rfl) _) ⟨rfl, rfl, rfl⟩ id
  · exact .busy h

/-- A hold is sent for what the engine has of it, or given back. -/
theorem confirm (hres : t.phase = .reserving) (hnow : look.nowNs = clock) (port : TreasuryPort) :
    Rests cfg clock (m.confirm cfg 0 look port).1 := by
  unfold Running.confirm
  rw [h.inMemory]
  dsimp -zeta only [getElem?_cons_zero]
  split
  · split
    · dsimp only
      exact .busy (h.update rfl)
    · exact .idle (h.release hres)
  rename_i held hheld
  extract_lets amount
  split_ifs with hsend
  · have hset := h.setTransfer { t with req.amount := amount }
    have hin : t.saved ∈ (disk m.log).inFlight := by
      rw [h.inFile]
      exact mem_singleton_self _
    refine submit hnow port hset.inMemory ?_ ⟨⟨hsend.1, dvd_roundDown⟩, fun _ => ?_, ?_⟩ ?_
    · have hnone := h.legal.keeps.unsent _ hin hres
      exact hnone
    · refine ⟨held, hheld, ?_⟩
      exact Int.le_trans (roundDown_le_of_pos hsend.1) (Int.min_le_left _ _)
    · intro hoff
      have hon := h.legal.keeps.reserve _ hin hres
      exact absurd (hon.symm.trans hoff) nofun
    · intro s hreq hseq hcreated _
      exact (hset.setTransfer s).persist
        ⟨(congrArg TransferRequest.clientId hreq).symm, hseq.symm, hcreated.symm⟩ fun _ => hres
  · exact .idle (h.release hres)

/-- One transfer of `resolve`. -/
theorem resolveOne
    (hnow : look.nowNs = clock) (port : TreasuryPort) :
    Rests cfg clock (m.resolveOne cfg 0 t look port).1 := by
  unfold Running.resolveOne
  by_cases hres : t.phase = .reserving
  · rw [if_pos hres]
    exact h.confirm hres hnow port
  rw [if_neg hres]
  split_ifs with hpoll
  · exact .busy h
  extract_lets s m₁ r m₂
  have h₁ : Stands cfg clock m₁ [s] [s.saved] := h.setTransfer s
  have h₂ : Stands cfg clock m₂ [s] [s.saved] := h₁.emit (.status hnow _ r) rfl
  have hasked : ⟨look, s.req, r⟩ ∈ statuses m₂.log := by
    show _ ∈ statuses (m₁.log ++ _)
    rw [statuses_append]
    exact mem_append_right _ (mem_singleton_self _)
  split
  · rename_i hr
    exact .idle (h₂.finish (.inr (.answered (.inr hasked) rfl (.inl hr))) _ _ _)
  · rename_i hr
    exact .idle (h₂.finish (.inr (.answered (.inr hasked) rfl (.inr hr))) _ _ _)
  · rename_i hr
    split_ifs with hage
    · exact .idle (h₂.finish (.inr (.late hasked rfl hr hage)) _ _ _)
    · exact h₂.timeOut _ _
  · exact (h₂.update rfl).timeOut _ _
  split
  · have hset := h₂.setTransfer { s with phase := .submitted }
    exact (hset.persist ⟨rfl, rfl, rfl⟩ nofun).timeOut _ _
  · exact h₂.timeOut _ _

theorem resolve (hnow : look.nowNs = clock)
    (port : TreasuryPort) : Rests cfg clock (m.resolve cfg look port) := by
  have hone : m.resolve cfg look port = (m.resolveOne cfg 0 t look port).1 := by
    unfold Running.resolve
    rw [h.inMemory]
    show Running.resolveFrom cfg look port 1 0 m = _
    rw [Running.resolveFrom, h.inMemory]
    rfl
  rw [hone]
  exact h.resolveOne hnow port

end

/-! ## A new transfer -/

section

variable (h : Stands cfg clock m [] [])
include h

/-- The limiter forgets what is an hour old. -/
theorem expire (f : Treasury → Treasury)
    (hf : (f m.treasury).ledger =
      { m.treasury.ledger with limiter := m.treasury.ledger.limiter.expire clock }) :
    Stands cfg clock (m.update f) [] [] := by
  obtain ⟨old, hold, hpast, -⟩ := h.sent
  obtain ⟨dropped, hdropped, hcut⟩ := exists_dropWhile_le (clock - kHourNs)
    m.treasury.ledger.limiter.sent
  have hsame : (m.update f).treasury.ledger =
      { m.treasury.ledger with limiter := m.treasury.ledger.limiter.expire clock } := hf
  constructor
  case legal => exact h.legal
  case inMemory => exact (congrArg TreasuryLedger.inFlight hf).trans h.inMemory
  case inFile => exact h.inFile
  case seq => exact (congrArg TreasuryLedger.seq hf).trans h.seq
  case lastSent => exact (congrArg (fun l => l.limiter.lastSentNs) hf).trans h.lastSent
  case sent =>
    rw [hsame]
    refine ⟨old ++ dropped, ?_, ?_, absurd rfl⟩
    · rw [append_assoc]
      exact hold.trans (congrArg (old ++ ·) hdropped)
    · intro x hx
      exact (mem_append.mp hx).elim (hpast x) (hcut x)

/-- The ledger with a transfer created now. -/
theorem creates (hpos : 0 < clock)
    (hgap : m.treasury.ledger.limiter.lastSentNs ≠ 0 →
      cfg.minIntervalNs ≤ clock - m.treasury.ledger.limiter.lastSentNs)
    (hroom : cfg.maxPerHour ≠ 0 →
      m.treasury.ledger.limiter.sent.length < cfg.maxPerHour)
    {l : TreasuryLedger} (hseq : l.seq = m.treasury.ledger.seq + 1)
    (hlimiter : l.limiter = m.treasury.ledger.limiter.onSent clock) (hl : l.inFlight = [t])
    (hname : t.req.clientId = clientId cfg clock t.seq) (hnumber : t.seq = l.seq)
    (hcreated : t.createdNs = clock) (hheld : t.phase = .reserving → cfg.reserve = true) :
    Creates cfg clock (disk m.log) l t := by
  obtain ⟨old, hold, hpast, -⟩ := h.sent
  constructor
  case empty => exact h.inFile
  case one => exact hl
  case held => exact hheld
  case seq => rw [hseq, h.seq]
  case number => exact hnumber
  case name => rw [hcreated]; exact hname
  case now => exact hcreated
  case pos => exact hpos
  case gap => rw [← h.lastSent]; exact hgap
  case lastSent => rw [hlimiter]; rfl
  case sent => exact ⟨old, _, hold, hpast, hroom, by rw [hlimiter]; rfl⟩

/-- A planned transfer enters the ledger, and is held or sent. -/
theorem send (hpos : 0 < clock)
    (hnow : look.nowNs = clock) (port : TreasuryPort)
    (hgap : m.treasury.ledger.limiter.lastSentNs ≠ 0 →
      cfg.minIntervalNs ≤ clock - m.treasury.ledger.limiter.lastSentNs)
    (hroom : cfg.maxPerHour ≠ 0 →
      m.treasury.ledger.limiter.sent.length < cfg.maxPerHour)
    {req : TransferRequest} (hsend : Sendable cfg req.amount) :
    Rests cfg clock (m.send cfg req look port) := by
  subst hnow
  unfold Running.send
  extract_lets seq s m₁
  have hmem : m₁.inFlight = [s] := by
    show m.inFlight ++ [s] = [s]
    rw [h.inMemory]
    rfl
  have hlegal : Legal cfg look.nowNs m₁.log := h.legal
  by_cases hreserve : cfg.reserve = true
  · rw [if_neg (by rw [hreserve]; nofun)]
    have hfits : Fits cfg look.nowNs m₁.log (.save m₁.treasury.ledger.saved) := by
      refine .creates (saved_saved _)
        (h.creates (t := s.saved) hpos hgap hroom rfl rfl ?_ rfl rfl rfl fun _ => hreserve)
      show m₁.inFlight.map _ = _
      rw [hmem]
      rfl
    exact .busy (t := s) (((persist_of_fits hlegal hmem hfits).record _ _ _).update rfl)
  · rw [if_pos (by rw [Bool.eq_false_iff.mpr hreserve]; rfl), hmem]
    have hphase : s.phase ≠ .reserving := by
      show (if cfg.reserve then TreasuryTransfer.Phase.reserving else .created) ≠ _
      rw [if_neg hreserve]
      nofun
    refine submit rfl port hmem ?_ ⟨hsend, fun hres => absurd hres hreserve, fun _ => rfl⟩ ?_
    · intro a ha
      obtain ⟨u, hu, hid, -⟩ := h.legal.keeps.accounted a ha
      rw [← hid]
      have hnew := h.creates (l := m₁.treasury.ledger) hpos hgap hroom rfl rfl hmem rfl rfl rfl
        fun hres => absurd hres hphase
      exact h.legal.keeps.clientId_fresh hnew u hu
    intro t hreq hseq hcreated hres
    have hset : (m₁.setTransfer 0 t).inFlight = [t] := by
      show m₁.inFlight.set 0 t = [t]
      rw [hmem]
      rfl
    have hsaved : (m₁.setTransfer 0 t).treasury.ledger.saved.inFlight = [t.saved] := by
      show (m₁.setTransfer 0 t).inFlight.map _ = _
      rw [hset]
      rfl
    have hname : t.req.clientId = clientId cfg look.nowNs t.seq := by
      rw [hreq, hseq]
    have hnew := h.creates hpos hgap hroom (t := t.saved) rfl rfl hsaved hname hseq hcreated
      fun hheld => absurd hheld hres
    exact persist_of_fits hlegal hset (.creates (saved_saved _) hnew)

theorem planAndSend (hpos : 0 < clock)
    (hnow : look.nowNs = clock) (port : TreasuryPort) :
    Rests cfg clock (m.planAndSend cfg look port) := by
  unfold Running.planAndSend
  extract_lets plan verdict m₁
  by_cases hstatus : plan.status ≠ .transfers
  · rw [if_pos hstatus]
    exact .idle h
  rw [if_neg hstatus]
  split
  · exact .idle h
  rename_i p rest hp
  extract_lets req
  have hsend : Sendable cfg req.amount :=
    sendable_planTransfers cfg _ p (by rw [hp]; exact mem_cons_self)
  by_cases hdry : cfg.dryRun = true
  · rw [if_pos hdry]
    unfold Running.dryRun
    split
    · exact .idle h
    · exact .idle ((h.update rfl).emit (.record _) rfl)
  rw [if_neg hdry]
  have h₁ : Stands cfg clock m₁ [] [] := by
    refine h.expire _ ?_
    rw [← hnow, ← check_snd cfg look.nowNs]
  split_ifs with hverdict
  · exact .idle (h₁.update rfl)
  obtain ⟨hgap, hroom⟩ := check_ok (not_not.mp hverdict)
  have hlimiter : m₁.treasury.ledger.limiter =
      m.treasury.ledger.limiter.expire look.nowNs := check_snd _ _ _
  refine h₁.send hpos hnow port ?_ ?_ hsend
  · rw [hlimiter, ← hnow]
    exact hgap
  · rw [hlimiter]
    exact hroom

end

/-- Holds asked for again. -/
theorem reholdAll (h : Stands cfg clock m mem file) :
    Stands cfg clock (m.reholdAll cfg) mem file := by
  have hfold : ∀ (ts : List TreasuryTransfer) (m : Running), Stands cfg clock m mem file →
      Stands cfg clock (ts.foldl (fun m t => m.record cfg .reserve t none) m) mem file := by
    intro ts
    induction ts with
    | nil => exact fun _ h => h
    | cons t ts ih => exact fun m h => ih _ (h.record _ _ _)
  unfold Running.reholdAll
  split
  · exact hfold _ _ (h.update rfl)
  · exact h

end Stands

namespace Rests

variable {cfg : TreasuryConfig} {clock now : Int} {m : Running}

theorem legal (h : Rests cfg clock m) : Legal cfg clock m.log := by
  cases h with
  | busy h => exact h.legal
  | idle h => exact h.legal

/-- One call of `step`. -/
theorem step (h : Rests cfg clock m) {look : Look} (hclock : clock ≤ look.nowNs)
    (hpos : 0 < look.nowNs) (port : TreasuryPort) :
    Rests cfg look.nowNs (m.step cfg look port) := by
  have hplan {m : Running} (h : Rests cfg look.nowNs m) : Rests cfg look.nowNs
      (if m.inFlight ≠ [] then m
      else if m.treasury.settling && !Running.settled cfg look m.treasury then m
      else (m.update fun d => { d with settling := false }).planAndSend cfg look port) := by
    cases h with
    | busy h =>
      rw [if_pos (by rw [h.inMemory]; exact cons_ne_nil _ _)]
      exact .busy h
    | idle h =>
      rw [if_neg (by rw [h.inMemory]; exact fun hne => hne rfl)]
      split
      · exact .idle h
      · exact (h.update rfl).planAndSend hpos rfl port
  unfold Running.step
  split
  · cases h with
    | busy h => exact .busy (h.advance hclock)
    | idle h => exact .idle (h.advance hclock)
  extract_lets m₁ m₂ m₃
  refine hplan (m := m₃) ?_
  cases h with
  | @busy t h =>
    have h₂ : Stands cfg look.nowNs m₂ [t] [t.saved] :=
      ((h.advance hclock).update rfl).reholdAll
    have hne : m₃ = m₂.resolve cfg look port :=
      if_neg (by rw [h₂.inMemory]; exact cons_ne_nil _ _)
    rw [hne]
    exact h₂.resolve rfl port
  | idle h =>
    have h₂ : Stands cfg look.nowNs m₂ [] [] := ((h.advance hclock).update rfl).reholdAll
    have hnil : m₃ = m₂ := if_pos h₂.inMemory
    rw [hnil]
    exact .idle h₂

end Rests

/-- A process starts from the ledger of an earlier one. -/
theorem rests_reopen {cfg : TreasuryConfig} {clock : Int} {log : List Effect}
    (h : Legal cfg clock log) (hfile : cfg.stateFile ≠ [] ∨ log = []) :
    Rests cfg clock (Running.reopen cfg log) := by
  have hload : TreasuryLedger.load cfg (disk log) = disk log := by
    rcases hfile with hne | rfl
    · exact if_neg hne
    · exact ite_self _
  have hone := h.keeps.one
  unfold Running.reopen
  rw [hload]
  extract_lets l sent m
  have hm : Stands cfg clock m sent (disk log).inFlight :=
    ⟨h, rfl, rfl, rfl, rfl, [], rfl, fun _ hx => absurd hx not_mem_nil, fun _ => rfl⟩
  match hdisk : (disk log).inFlight with
  | [] =>
    have hsent : sent = [] := by
      unfold sent
      rw [hdisk]
      rfl
    rw [if_neg (by rw [hsent]; exact fun hne => hne rfl)]
    rw [hsent, hdisk] at hm
    exact .idle hm
  | [t] =>
    rw [hdisk] at hm
    by_cases hres : t.phase = .reserving
    · have hsent : sent = [] := by
        unfold sent
        rw [hdisk, filter_cons_of_neg (by rw [hres]; decide)]
        rfl
      rw [if_pos (by rw [hsent]; nofun)]
      rw [hsent] at hm
      exact .idle (hm.persist_gone (.inl hres))
    · have hsent : sent = [t] := by
        unfold sent
        rw [hdisk]
        exact filter_cons_of_pos (decide_eq_true hres)
      have hform : t.saved = t := by
        have hsaved := congrArg TreasuryLedger.inFlight h.saved_disk
        unfold TreasuryLedger.saved at hsaved
        dsimp only at hsaved
        rw [hdisk] at hsaved
        exact head_eq_of_cons_eq hsaved
      rw [if_neg (by rw [hsent]; exact fun hne => hne rfl)]
      rw [hsent] at hm
      exact .busy (t := t) (by rw [hform]; exact hm)
  | _ :: _ :: _ =>
    simp [hdisk] at hone

namespace Run

variable {cfg : TreasuryConfig} {w : World}

/-- Every history leaves a log that fits its saved ledgers. -/
theorem rests (h : Run cfg w) : Legal cfg w.clock w.log ∧
    ∀ d, w.treasury = some d → Rests cfg w.clock ⟨d, w.log⟩ := by
  induction h with
  | start => exact ⟨.nil, nofun⟩
  | reopen _ hfile ih =>
    have hrests := rests_reopen ih.1 hfile
    exact ⟨hrests.legal, fun d hd => by cases hd; exact hrests⟩
  | reopenStopped _ hfile _ hto ih =>
    exact ⟨(rests_reopen ih.1 hfile).legal.of_prefix hto, nofun⟩
  | step _ look port hclock hpos ih =>
    have hrests := (ih.2 _ rfl).step hclock hpos port
    exact ⟨hrests.legal, fun d hd => by cases hd; exact hrests⟩
  | stepStopped _ look port hclock hpos _ hto ih =>
    exact ⟨((ih.2 _ rfl).step hclock hpos port).legal.of_prefix hto, nofun⟩
  | stop _ ih => exact ⟨ih.1, nofun⟩

theorem legal (h : Run cfg w) : Legal cfg w.clock w.log := h.rests.1

end Run

end FastMM.Treasury
