/-
  Treasury/SentOnce.lean --- at most one transfer is unsettled, and none is sent twice.

  Over every history of processes of one ledger.  What the driver learns from a venue that has
  nothing under an id is only as good as the time since the venue was asked: an answer that comes
  too soon after `submit` of a transfer that was long held is the one case the driver gets wrong.
-/
import FastMM.Treasury.Looks
set_option autoImplicit false

namespace FastMM.Treasury

open Foundation

/-! ## The venue -/

/-- When the venue carries out the request of an id, if it ever does. -/
abbrev Venue : Type := List Char → Option Int

/-- At a time, a request has been carried out, or never will be. -/
def Venue.Settled (venue : Venue) (id : List Char) (nowNs : Int) : Prop :=
  ∀ t ∈ venue id, t ≤ nowNs

/-- The answers `Done` and `Failed` are true, and what the venue does not show `timeoutNs` after
`submit` it never carries out. -/
structure Truthful (cfg : TreasuryConfig) (venue : Venue) (log : List Effect) : Prop where
  done : ∀ a ∈ submits log ++ statuses log, a.answer.state = .done →
    ∃ t ∈ venue a.req.clientId, t ≤ a.look.nowNs
  failed : ∀ a ∈ submits log ++ statuses log, a.answer.state = .failed →
    venue a.req.clientId = none
  lost : ∀ s ∈ submits log, ∀ a ∈ statuses log, a.req.clientId = s.req.clientId →
    a.answer.state = .notFound → s.look.nowNs + cfg.timeoutNs ≤ a.look.nowNs →
    venue a.req.clientId = none

/-- A transfer that is past its timeout when the venue does not know it was submitted a timeout
before. -/
def Timely (cfg : TreasuryConfig) (log : List Effect) : Prop :=
  ∀ u ∈ created log, ∀ s ∈ submits log, ∀ a ∈ statuses log,
    s.req.clientId = u.req.clientId → a.req.clientId = u.req.clientId →
    a.answer.state = .notFound → cfg.timeoutNs ≤ a.look.nowNs - u.createdNs →
    s.look.nowNs + cfg.timeoutNs ≤ a.look.nowNs

/-! ## What holds of a history -/

structure SentOnce (cfg : TreasuryConfig) (venue : Venue) (log : List Effect) : Prop where
  /-- No ledger has more than one transfer unresolved. -/
  one : ∀ l, Effect.save l ∈ log → l.inFlight.length ≤ 1
  /-- The venue is asked once for an id. -/
  once : ((submits log).map fun a => a.req.clientId).Nodup
  /-- No two transfers have one id. -/
  named : ((created log).map fun u => u.req.clientId).Nodup
  /-- When the venue is asked, what it was asked before is settled. -/
  settled : ∀ before look req r, before ++ [.submit look req r] <+: log →
    ∀ a ∈ submits before, venue.Settled a.req.clientId look.nowNs
  /-- What is sent is a transfer that was created, of an amount that may be sent, and no more than
  the engine holds for it. -/
  sendable : ∀ a ∈ submits log, ∃ u ∈ created log, u.req.clientId = a.req.clientId ∧
    Sendable cfg a.req.amount ∧
    (cfg.reserve = true → ∃ held, heldFor a.look u.seq = some held ∧ a.req.amount ≤ held)
  /-- Transfers are created so far apart. -/
  spaced : (created log).Pairwise fun a b => a.createdNs + cfg.minIntervalNs ≤ b.createdNs
  /-- No hour has more of them than its limit; a limit of zero is none. -/
  hourly : cfg.maxPerHour ≠ 0 →
    AtMostIn cfg.maxPerHour kHourNs ((created log).map TreasuryTransfer.createdNs)

/-! ## Evidence settles -/

theorem Evidence.settled {cfg : TreasuryConfig} {venue : Venue} {before log : List Effect}
    {u : TreasuryTransfer} {clock : Int} (h : Evidence cfg before u)
    (hlegal : Legal cfg clock before) (hp : before <+: log) (htrue : Truthful cfg venue log)
    (htimely : Timely cfg log) (hu : u ∈ created before) {s : Asked} (hs : s ∈ submits before)
    (hid : u.req.clientId = s.req.clientId) : venue.Settled s.req.clientId clock := by
  rw [← hid]
  cases h with
  | @answered a ha haid hr =>
    have hmem : a ∈ submits log ++ statuses log :=
      List.mem_append.mpr (ha.imp (submits_grow hp a) (statuses_grow hp a))
    rw [← haid]
    rcases hr with hr | hr
    · obtain ⟨t, ht, hle⟩ := htrue.done a hmem hr
      intro t' ht'
      cases Option.mem_unique ht ht'
      exact Int.le_trans hle (hlegal.asked a ha)
    · intro t ht
      simp [htrue.failed a hmem hr] at ht
  | @late a ha haid hr hage =>
    have hs' := submits_grow hp s hs
    have ha' := statuses_grow hp a ha
    have hlate := htimely u (created_grow hp u hu) s hs' a ha' hid.symm haid hr hage
    have hnone := htrue.lost s hs' a ha' (haid.trans hid) hr hlate
    intro t ht
    simp [← haid, hnone] at ht

namespace Run

variable {cfg : TreasuryConfig} {venue : Venue} {w : World}

section

variable (h : Run cfg w) (htrue : Truthful cfg venue w.log) (htimely : Timely cfg w.log)
include h htrue htimely

/-- What the venue was asked earlier is settled when it is asked again. -/
theorem settled_before {before : List Effect} {look : Look} {req : TransferRequest}
    {r : TransferResult} (hp : before ++ [.submit look req r] <+: w.log) :
    ∀ a ∈ submits before, venue.Settled a.req.clientId look.nowNs := by
  obtain ⟨now, hlegal, hfits⟩ := (h.legal.of_prefix hp).last
  have hbefore := (List.prefix_append before _).trans hp
  intro a ha
  cases hfits with
  | @submit _ hnow t hone hphase hfresh =>
    obtain ⟨u, hu, hid, hout⟩ := hlegal.keeps.accounted a ha
    rw [hnow]
    rcases hout with ⟨v, hv, hsame⟩ | hev
    · rw [hone] at hv
      rw [List.mem_singleton.mp hv] at hsame
      exact absurd (hid.symm.trans hsame.clientId) (hfresh a ha)
    · exact hev.settled hlegal hbefore htrue htimely hu ha hid

/-- A transfer at a time, each sent once. -/
theorem sent_once : SentOnce cfg venue w.log where
  one := by
    intro l hl
    obtain ⟨before, after, hlog⟩ := List.append_of_mem hl
    have hp : before ++ [.save l] <+: w.log := ⟨after, by rw [hlog, List.append_assoc]; rfl⟩
    have hone := (h.legal.of_prefix hp).keeps.one
    rw [disk_snoc] at hone
    exact hone
  once := h.legal.keeps.once
  named := h.legal.keeps.nodup_clientId
  settled := fun _ _ _ _ hp => h.settled_before htrue htimely hp
  sendable := by
    intro a ha
    obtain ⟨u, hu, hid, hproper⟩ := h.legal.keeps.proper a ha
    exact ⟨u, hu, hid, hproper.sendable, hproper.held⟩
  spaced := h.legal.keeps.spaced
  hourly := h.legal.keeps.hourly

end

end Run

/-! ## A transfer long held -/

/-- Two accounts that share their balance evenly, with holds. -/
def evenConfig : TreasuryConfig where
  enabled := true
  asset := ['U']
  reserve := true
  members := [⟨0⟩, ⟨1⟩]
  shares :=
    { demand := fun _ _ _ => 0
      weight := fun total _ => total / 2
      weighed := true
      keep := fun target => target * 8 / 10 }
  step := 1
  minIntervalNs := 0
  cooldownNs := 0
  stateFile := ['t']

def evenLook (s : Int) (holdSeq : Nat) : Look where
  nowNs := s * 1000000000
  balances :=
    [{ venue := ⟨0⟩, asset := ['U'], free := 300, known := true },
     { venue := ⟨1⟩, asset := ['U'], free := 100, known := true }]
  funding := some { holdSeq := holdSeq, held := 100 }

def silentPort : TreasuryPort where
  submit := fun _ => { state := .unknown }
  status := fun _ => { state := .notFound }

/-- A transfer planned at 10 s, held until 69 s, and not found at `asked`; the next one is sent. -/
def longHeld (asked : Int) : Running :=
  (((((Running.reopen evenConfig []).step evenConfig (evenLook 10 0) silentPort).step
    evenConfig (evenLook 69 1) silentPort).step evenConfig (evenLook asked 0) silentPort).step
    evenConfig (evenLook (asked + 1) 2) silentPort)

theorem Run.look {cfg : TreasuryConfig} {m : Running} {clock : Int}
    (h : Run cfg ⟨some m.treasury, m.log, clock⟩) (look : Look) (port : TreasuryPort)
    (hclock : clock ≤ look.nowNs) (hpos : 0 < look.nowNs) :
    Run cfg ⟨some (m.step cfg look port).treasury, (m.step cfg look port).log, look.nowNs⟩ :=
  h.step look port hclock hpos

theorem run_longHeld (asked : Int) (h : 69 ≤ asked) :
    Run evenConfig ⟨some (longHeld asked).treasury, (longHeld asked).log,
      (evenLook (asked + 1) 2).nowNs⟩ := by
  have h₀ : Run evenConfig ⟨some (Running.reopen evenConfig []).treasury,
    (Running.reopen evenConfig []).log, 0⟩ := .reopen .start (.inr rfl)
  have h₁ := h₀.look (evenLook 10 0) silentPort (by decide) (by decide)
  have h₂ := h₁.look (evenLook 69 1) silentPort (by decide) (by decide)
  have hlate : (evenLook 69 1).nowNs ≤ (evenLook asked 0).nowNs := by
    show (69 : Int) * 1000000000 ≤ asked * 1000000000
    omega
  have hpos : 0 < (evenLook asked 0).nowNs := Int.lt_of_lt_of_le (by decide) hlate
  have h₃ := h₂.look (evenLook asked 0) silentPort hlate hpos
  have hnext : (evenLook asked 0).nowNs ≤ (evenLook (asked + 1) 2).nowNs := by
    show asked * 1000000000 ≤ (asked + 1) * 1000000000
    omega
  exact h₃.look (evenLook (asked + 1) 2) silentPort hnext (Int.lt_of_lt_of_le hpos hnext)

/-- Asked for a timeout after it was sent, a lost transfer is given up in time. -/
theorem Run.sent_once_longHeld : SentOnce evenConfig (fun _ => none) (longHeld 130).log :=
  have hrun := run_longHeld 130 (by decide)
  have htrue : Truthful evenConfig (fun _ => none) (longHeld 130).log :=
    ⟨by decide +kernel, by decide +kernel, by decide +kernel⟩
  have htimely : Timely evenConfig (longHeld 130).log := by
    unfold Timely
    decide +kernel
  hrun.sent_once htrue htimely

/-- A venue that carries out a transfer 31 s after it was sent. -/
def slowVenue : Venue := fun id =>
  if id = clientId evenConfig 10000000000 1 then some 100000000000 else none

/-- A transfer long held is given up 10 s after it was sent, and another is sent while the venue
may still carry it out. -/
theorem Run.not_sent_once_longHeld : ∃ w, Run evenConfig w ∧ Truthful evenConfig slowVenue w.log ∧
    ¬ SentOnce evenConfig slowVenue w.log := by
  refine ⟨_, run_longHeld 79 (by decide), ?_, ?_⟩
  · exact ⟨by decide +kernel, by decide +kernel, by decide +kernel⟩
  intro h
  have hp : (longHeld 79).log.take 12 ++ [.submit (evenLook 80 2)
      { clientId := clientId evenConfig 79000000000 2, payer := ⟨0⟩, payee := ⟨1⟩, asset := ['U'],
        amount := 100, createdMs := 79000 } { state := .unknown }] <+: (longHeld 79).log := by
    decide +kernel
  have hsettled := h.settled _ _ _ _ hp
  exact absurd hsettled (by unfold Venue.Settled; decide +kernel)

end FastMM.Treasury
