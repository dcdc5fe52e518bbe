/-
  Treasury/WriteAhead.lean --- the ledger a process leaves is enough to go on from.

  What may be saved, and when the venue may be asked, said of the saved ledger alone: a request is
  made of the one transfer the ledger has, a transfer leaves the ledger only unsent or on an answer
  about it, and a new one enters an empty ledger.  A process that stops leaves a log of this kind,
  whatever it was about to do.
-/
import FastMM.Foundation.SlidingWindow
import FastMM.Treasury.Driver
import Mathlib.Algebra.Order.Group.Int
import Mathlib.Data.List.Induction
import Mathlib.Data.List.Nodup
set_option autoImplicit false

namespace FastMM.Treasury

open Foundation List TreasuryTransfer

/-! ## What a log says -/

variable (log : List Effect)
variable {cfg : TreasuryConfig}
variable {t u : TreasuryTransfer}

/-- A request to the venue, and its answer. -/
structure Asked where
  look : Look
  req : TransferRequest
  answer : TransferResult

/-- What the venue was asked to carry out. -/
def submits : List Asked :=
  log.filterMap fun
    | .submit look req r => some ⟨look, req, r⟩
    | _ => none

/-- What the venue was asked about. -/
def statuses : List Asked :=
  log.filterMap fun
    | .status look req r => some ⟨look, req, r⟩
    | _ => none

/-- The transfers an effect adds to a saved ledger. -/
def createdBy (l : TreasuryLedger) : Effect → List TreasuryTransfer
  | .save saved =>
    saved.inFlight.filter fun t => l.inFlight.all fun u => u.req.clientId ≠ t.req.clientId
  | _ => []

/-- The transfers that were created, oldest first: those the saved ledgers ever had. -/
def created : List TreasuryTransfer :=
  (log.foldl (fun s e => (s.1.after e, s.2 ++ createdBy s.1 e)) (({}, []) :
    TreasuryLedger × List TreasuryTransfer)).2

theorem disk_snoc (e : Effect) : disk (log ++ [e]) = (disk log).after e := by
  unfold disk
  rw [foldl_append]
  rfl

theorem created_snoc (e : Effect) :
    created (log ++ [e]) = created log ++ createdBy (disk log) e := by
  have hdisk : ∀ (log : List Effect) (s : TreasuryLedger × List TreasuryTransfer),
      (log.foldl (fun s e => (s.1.after e, s.2 ++ createdBy s.1 e)) s).1 =
        log.foldl TreasuryLedger.after s.1 := by
    intro log
    induction log with
    | nil => exact fun _ => rfl
    | cons e log ih => exact fun s => ih _
  unfold created
  rw [foldl_append]
  rw [foldl_cons, foldl_nil, hdisk]
  rfl

theorem submits_append (log more : List Effect) :
    submits (log ++ more) = submits log ++ submits more := filterMap_append

theorem statuses_append (log more : List Effect) :
    statuses (log ++ more) = statuses log ++ statuses more := filterMap_append

section

variable {before log : List Effect} (h : before <+: log)
include h

theorem submits_grow :
    ∀ a ∈ submits before, a ∈ submits log := (h.filterMap _).subset

theorem statuses_grow :
    ∀ a ∈ statuses before, a ∈ statuses log := (h.filterMap _).subset

theorem created_grow :
    ∀ u ∈ created before, u ∈ created log := by
  obtain ⟨more, rfl⟩ := h
  induction more using List.reverseRecOn with
  | nil =>
    rw [append_nil]
    exact fun _ hu => hu
  | append_singleton more e ih =>
    intro u hu
    rw [← append_assoc, created_snoc]
    exact mem_append_left _ (ih u hu)

end

/-- What the log says of a transfer that may leave the ledger. -/
inductive Evidence (cfg : TreasuryConfig) (log : List Effect) (u : TreasuryTransfer) : Prop where
  | answered {a : Asked} (h : a ∈ submits log ∨ a ∈ statuses log)
      (hid : a.req.clientId = u.req.clientId)
      (hr : a.answer.state = .done ∨ a.answer.state = .failed)
  | late {a : Asked} (h : a ∈ statuses log) (hid : a.req.clientId = u.req.clientId)
      (hr : a.answer.state = .notFound) (hage : cfg.timeoutNs ≤ a.look.nowNs - u.createdNs)

theorem Evidence.mono {log more : List Effect} {u : TreasuryTransfer}
    (h : Evidence cfg log u) (hp : log <+: more) : Evidence cfg more u := by
  cases h with
  | answered h hid hr => exact .answered (h.imp (submits_grow hp _) (statuses_grow hp _)) hid hr
  | late h hid hr hage => exact .late (statuses_grow hp _ h) hid hr hage

/-! ## What may happen next -/

/-- A transfer under its name. -/
structure SameTransfer (u t : TreasuryTransfer) : Prop where
  clientId : u.req.clientId = t.req.clientId
  seq : u.seq = t.seq
  createdNs : u.createdNs = t.createdNs

theorem SameTransfer.refl (t : TreasuryTransfer) : SameTransfer t t := ⟨rfl, rfl, rfl⟩

theorem SameTransfer.trans {t u v : TreasuryTransfer} (h : SameTransfer t u)
    (hv : SameTransfer u v) : SameTransfer t v :=
  ⟨h.clientId.trans hv.clientId, h.seq.trans hv.seq, h.createdNs.trans hv.createdNs⟩

theorem Evidence.same {log : List Effect}
    (h : Evidence cfg log t) (hu : SameTransfer u t) : Evidence cfg log u := by
  cases h with
  | answered h hid hr => exact .answered h (hid.trans hu.clientId.symm) hr
  | late h hid hr hage => exact .late h (hid.trans hu.clientId.symm) hr (by rwa [hu.createdNs])

/-- What a look holds for an amount of a transfer the venue is asked to carry out. -/
structure Proper (cfg : TreasuryConfig) (look : Look) (u : TreasuryTransfer) (amount : Notional) :
    Prop where
  sendable : Sendable cfg amount
  held : cfg.reserve = true → ∃ held, heldFor look u.seq = some held ∧ amount ≤ held
  prompt : cfg.reserve = false → look.nowNs = u.createdNs

theorem Proper.same {look : Look}
    {amount : Notional} (h : Proper cfg look t amount) (hu : SameTransfer u t) :
    Proper cfg look u amount where
  sendable := h.sendable
  held := by
    rw [hu.seq]
    exact h.held
  prompt := by
    rw [hu.createdNs]
    exact h.prompt

/-- The counters of a ledger that creates nothing. -/
structure SameCounters (l l' : TreasuryLedger) : Prop where
  seq : l'.seq = l.seq
  sent : l'.limiter.sent = l.limiter.sent
  lastSent : l'.limiter.lastSentNs = l.limiter.lastSentNs

/-- A new transfer, at the time of the clock, in an empty ledger. -/
structure Creates (cfg : TreasuryConfig) (clock : Int) (l l' : TreasuryLedger)
    (t : TreasuryTransfer) : Prop where
  empty : l.inFlight = []
  one : l'.inFlight = [t]
  held : t.phase = .reserving → cfg.reserve = true
  seq : l'.seq = l.seq + 1
  number : t.seq = l'.seq
  name : t.req.clientId = clientId cfg t.createdNs t.seq
  now : t.createdNs = clock
  pos : 0 < clock
  gap : l.limiter.lastSentNs ≠ 0 → cfg.minIntervalNs ≤ clock - l.limiter.lastSentNs
  lastSent : l'.limiter.lastSentNs = clock
  sent : ∃ old recent, l.limiter.sent = old ++ recent ∧ (∀ x ∈ old, x ≤ clock - kHourNs) ∧
    (cfg.maxPerHour ≠ 0 → recent.length < cfg.maxPerHour) ∧
    l'.limiter.sent = recent ++ [clock]

inductive Fits (cfg : TreasuryConfig) (clock : Int) (log : List Effect) : Effect → Prop where
  | refresh (account : VenueId) : Fits cfg clock log (.refresh account)
  | record (event : TreasuryEvent) : Fits cfg clock log (.record event)
  | status {look : Look} (hnow : look.nowNs = clock) (req : TransferRequest) (r : TransferResult) :
      Fits cfg clock log (.status look req r)
  | submit {look : Look} (hnow : look.nowNs = clock) {t : TreasuryTransfer}
      (hone : (disk log).inFlight = [t]) (hphase : t.phase ≠ .reserving)
      (hfresh : ∀ a ∈ submits log, a.req.clientId ≠ t.req.clientId)
      (hproper : Proper cfg look t t.req.amount) (r : TransferResult) :
      Fits cfg clock log (.submit look t.req r)
  | onward {l : TreasuryLedger} (hform : l.saved = l) (hcount : SameCounters (disk log) l)
      {t t' : TreasuryTransfer} (hone : (disk log).inFlight = [t]) (hl : l.inFlight = [t'])
      (hsame : SameTransfer t t')
      (hphase : t'.phase = .reserving → t.phase = .reserving) : Fits cfg clock log (.save l)
  | gone {l : TreasuryLedger} (hform : l.saved = l) (hcount : SameCounters (disk log) l)
      {t : TreasuryTransfer} (hone : (disk log).inFlight = [t]) (hl : l.inFlight = [])
      (hout : t.phase = .reserving ∨ Evidence cfg log t) : Fits cfg clock log (.save l)
  | creates {l : TreasuryLedger} (hform : l.saved = l) {t : TreasuryTransfer}
      (h : Creates cfg clock (disk log) l t) : Fits cfg clock log (.save l)

/-- The logs of such effects, with a clock that does not run backwards. -/
inductive Legal (cfg : TreasuryConfig) : Int → List Effect → Prop where
  | nil : Legal cfg 0 []
  | advance {clock now : Int} {log : List Effect} (h : Legal cfg clock log) (hle : clock ≤ now) :
      Legal cfg now log
  | snoc {clock : Int} {log : List Effect} {e : Effect} (h : Legal cfg clock log)
      (he : Fits cfg clock log e) : Legal cfg clock (log ++ [e])

theorem Legal.of_prefix {clock : Int} {log before : List Effect}
    (h : Legal cfg clock log) (hp : before <+: log) : Legal cfg clock before := by
  induction h with
  | nil =>
    rw [prefix_nil.mp hp]
    exact .nil
  | advance _ hle ih => exact (ih hp).advance hle
  | snoc h he ih =>
    rcases prefix_concat_iff.mp hp with rfl | hp
    · exact h.snoc he
    · exact ih hp

/-! ## What the saved ledger knows of the whole history -/

/-- The saved ledger `l` against the transfers created, the requests made and what was learnt of
them. -/
structure Keeps (cfg : TreasuryConfig) (clock : Int) (l : TreasuryLedger)
    (us : List TreasuryTransfer) (ps : List Asked) (ev : TreasuryTransfer → Prop) : Prop where
  one : l.inFlight.length ≤ 1
  flying : ∀ t ∈ l.inFlight, ∃ u ∈ us, SameTransfer u t
  unsent : ∀ t ∈ l.inFlight, t.phase = .reserving → ∀ a ∈ ps, a.req.clientId ≠ t.req.clientId
  reserve : ∀ t ∈ l.inFlight, t.phase = .reserving → cfg.reserve = true
  accounted : ∀ a ∈ ps, ∃ u ∈ us, u.req.clientId = a.req.clientId ∧
    ((∃ t ∈ l.inFlight, SameTransfer u t) ∨ ev u)
  proper : ∀ a ∈ ps, ∃ u ∈ us, u.req.clientId = a.req.clientId ∧
    Proper cfg a.look u a.req.amount
  once : (ps.map fun a => a.req.clientId).Nodup
  named : ∀ u ∈ us, u.req.clientId = clientId cfg u.createdNs u.seq
  numbered : us.Pairwise fun a b => a.seq < b.seq ∧ a.createdNs ≤ b.createdNs
  spaced : us.Pairwise fun a b => a.createdNs + cfg.minIntervalNs ≤ b.createdNs
  past : ∀ u ∈ us, u.seq ≤ l.seq ∧ 0 < u.createdNs ∧ u.createdNs ≤ l.limiter.lastSentNs
  lastSent : l.limiter.lastSentNs ≤ clock
  queue : ∃ old, us.map createdNs = old ++ l.limiter.sent ∧
    ∀ x ∈ old, x ≤ clock - kHourNs
  hourly : cfg.maxPerHour ≠ 0 →
    AtMostIn cfg.maxPerHour kHourNs (us.map createdNs)

namespace Keeps

variable {cfg : TreasuryConfig} {clock now : Int} {l l' : TreasuryLedger}
  {us : List TreasuryTransfer} {ps : List Asked} {ev more : TreasuryTransfer → Prop}
variable {t : TreasuryTransfer}

theorem nil : Keeps cfg 0 {} [] [] ev where
  one := Nat.zero_le _
  flying := fun _ h => absurd h not_mem_nil
  unsent := fun _ h => absurd h not_mem_nil
  reserve := fun _ h => absurd h not_mem_nil
  accounted := fun _ h => absurd h not_mem_nil
  proper := fun _ h => absurd h not_mem_nil
  once := nodup_nil
  named := fun _ h => absurd h not_mem_nil
  numbered := .nil
  spaced := .nil
  past := fun _ h => absurd h not_mem_nil
  lastSent := Int.le_refl 0
  queue := ⟨[], rfl, fun _ h => absurd h not_mem_nil⟩
  hourly := fun _ => AtMostIn.nil _ _

section

variable (h : Keeps cfg clock l us ps ev)
include h

theorem advance (hle : clock ≤ now) :
    Keeps cfg now l us ps ev := by
  obtain ⟨old, hold, hpast⟩ := h.queue
  exact { h with
    lastSent := Int.le_trans h.lastSent hle
    queue := ⟨old, hold, fun x hx => by have := hpast x hx; omega⟩ }

/-- More may be learnt. -/
theorem learn (hev : ∀ u, ev u → more u) :
    Keeps cfg clock l us ps more where
  __ := h
  accounted := fun a ha => by
    obtain ⟨u, hu, hid, hout⟩ := h.accounted a ha
    exact ⟨u, hu, hid, hout.imp_right (hev u)⟩

theorem nodup_clientId :
    (us.map fun u => u.req.clientId).Nodup := by
  rw [List.Nodup, pairwise_map]
  refine h.numbered.imp_of_mem fun ha hb hlt => ?_
  rw [h.named _ ha, h.named _ hb]
  exact clientId_ne hlt.2 hlt.1

/-- The transfer in flight is handed to the venue. -/
theorem submit {look : Look}
    (hone : l.inFlight = [t]) (hphase : t.phase ≠ .reserving)
    (hfresh : ∀ a ∈ ps, a.req.clientId ≠ t.req.clientId)
    (hproper : Proper cfg look t t.req.amount) (r : TransferResult) :
    Keeps cfg clock l us (ps ++ [⟨look, t.req, r⟩]) ev := by
  have ht : t ∈ l.inFlight := by rw [hone]; exact mem_singleton_self t
  obtain ⟨u, hu, hsame⟩ := h.flying t ht
  exact { h with
    unsent := by
      intro v hv hres
      rw [hone] at hv
      rw [mem_singleton.mp hv] at hres
      exact absurd hres hphase
    accounted := by
      intro a ha
      rcases mem_append.mp ha with ha | ha
      · exact h.accounted a ha
      · rw [mem_singleton.mp ha]
        exact ⟨u, hu, hsame.clientId, .inl ⟨t, ht, hsame⟩⟩
    proper := by
      intro a ha
      rcases mem_append.mp ha with ha | ha
      · exact h.proper a ha
      · rw [mem_singleton.mp ha]
        exact ⟨u, hu, hsame.clientId, hproper.same hsame⟩
    once := by
      rw [map_append, nodup_append]
      refine ⟨h.once, nodup_singleton _, ?_⟩
      intro c hc b hb
      obtain ⟨a, ha, rfl⟩ := mem_map.mp hc
      rw [map_singleton, mem_singleton] at hb
      rw [hb]
      exact hfresh a ha }

/-- The transfer in flight is saved again. -/
theorem onward (hcount : SameCounters l l')
    {t t' : TreasuryTransfer} (hone : l.inFlight = [t]) (hl : l'.inFlight = [t'])
    (hsame : SameTransfer t t') (hphase : t'.phase = .reserving → t.phase = .reserving) :
    Keeps cfg clock l' us ps ev := by
  have ht : t ∈ l.inFlight := by rw [hone]; exact mem_singleton_self t
  have ht' : t' ∈ l'.inFlight := by rw [hl]; exact mem_singleton_self t'
  exact { h with
    one := by rw [hl]; exact Nat.le_refl 1
    flying := by
      intro v hv
      rw [hl] at hv
      rw [mem_singleton.mp hv]
      obtain ⟨u, hu, hut⟩ := h.flying t ht
      exact ⟨u, hu, hut.trans hsame⟩
    unsent := by
      intro v hv hres a ha
      rw [hl] at hv
      rw [mem_singleton.mp hv] at hres ⊢
      rw [← hsame.clientId]
      exact h.unsent t ht (hphase hres) a ha
    reserve := by
      intro v hv hres
      rw [hl] at hv
      rw [mem_singleton.mp hv] at hres
      exact h.reserve t ht (hphase hres)
    accounted := by
      intro a ha
      obtain ⟨u, hu, hid, hout⟩ := h.accounted a ha
      refine ⟨u, hu, hid, hout.imp_left ?_⟩
      rintro ⟨v, hv, huv⟩
      rw [hone] at hv
      rw [mem_singleton.mp hv] at huv
      exact ⟨t', ht', huv.trans hsame⟩
    past := fun u hu => by rw [hcount.seq, hcount.lastSent]; exact h.past u hu
    lastSent := by rw [hcount.lastSent]; exact h.lastSent
    queue := by rw [hcount.sent]; exact h.queue }

/-- The transfer in flight leaves the ledger. -/
theorem gone (hcount : SameCounters l l') (hone : l.inFlight = [t]) (hl : l'.inFlight = [])
    (hev : ∀ u, SameTransfer u t → t.phase = .reserving ∨ ev u) :
    Keeps cfg clock l' us ps ev := by
  have ht : t ∈ l.inFlight := by rw [hone]; exact mem_singleton_self t
  exact { h with
    one := by rw [hl]; exact Nat.zero_le 1
    flying := fun v hv => by rw [hl] at hv; exact absurd hv not_mem_nil
    unsent := fun v hv => by rw [hl] at hv; exact absurd hv not_mem_nil
    reserve := fun v hv => by rw [hl] at hv; exact absurd hv not_mem_nil
    accounted := by
      intro a ha
      obtain ⟨u, hu, hid, hout⟩ := h.accounted a ha
      refine ⟨u, hu, hid, .inr ?_⟩
      rcases hout with ⟨v, hv, huv⟩ | hout
      · rw [hone] at hv
        rw [mem_singleton.mp hv] at huv
        rcases hev u huv with hres | hout
        · exact absurd (hid.symm.trans huv.clientId) (h.unsent t ht hres a ha)
        · exact hout
      · exact hout
    past := fun u hu => by rw [hcount.seq, hcount.lastSent]; exact h.past u hu
    lastSent := by rw [hcount.lastSent]; exact h.lastSent
    queue := by rw [hcount.sent]; exact h.queue }

/-- The name of a new transfer is new. -/
theorem clientId_fresh
    (hnew : Creates cfg clock l l' t) : ∀ u ∈ us, u.req.clientId ≠ t.req.clientId := by
  intro u hu
  obtain ⟨hseq, -, htime⟩ := h.past u hu
  have hnumber := hnew.number
  have hnext := hnew.seq
  rw [h.named u hu, hnew.name, hnew.now]
  exact clientId_ne (Int.le_trans htime h.lastSent) (by omega)

/-- A transfer is created. -/
theorem creates
    (hnew : Creates cfg clock l l' t) : Keeps cfg clock l' (us ++ [t]) ps ev := by
  obtain ⟨old, hqueue, hold⟩ := h.queue
  obtain ⟨gone, recent, hsent, hgone, hroom, hsent'⟩ := hnew.sent
  have hsplit : us.map createdNs = (old ++ gone) ++ recent := by
    rw [hqueue, hsent, append_assoc]
  have hcut : ∀ x ∈ old ++ gone, x ≤ clock - kHourNs := by
    intro x hx
    exact (mem_append.mp hx).elim (hold x) (hgone x)
  have hlast : ∀ u ∈ us, u.seq < t.seq ∧ u.createdNs ≤ t.createdNs := by
    intro u hu
    obtain ⟨hseq, -, htime⟩ := h.past u hu
    have hnumber := hnew.number
    have hnext := hnew.seq
    have hnow := hnew.now
    have hclock := h.lastSent
    exact ⟨by omega, by omega⟩
  have hsnoc : ∀ {R : TreasuryTransfer → TreasuryTransfer → Prop}, us.Pairwise R →
      (∀ u ∈ us, R u t) → (us ++ [t]).Pairwise R := by
    intro R hpair hall
    refine pairwise_append.mpr ⟨hpair, pairwise_singleton _ _, ?_⟩
    intro u hu v hv
    rw [mem_singleton.mp hv]
    exact hall u hu
  constructor
  case one => rw [hnew.one]; exact Nat.le_refl 1
  case flying =>
    intro v hv
    rw [hnew.one] at hv
    rw [mem_singleton.mp hv]
    exact ⟨t, mem_append_right _ (mem_singleton_self t), .refl t⟩
  case unsent =>
    intro v hv _ a ha
    rw [hnew.one] at hv
    rw [mem_singleton.mp hv]
    obtain ⟨u, hu, hid, -⟩ := h.accounted a ha
    rw [← hid]
    exact h.clientId_fresh hnew u hu
  case reserve =>
    intro v hv hres
    rw [hnew.one] at hv
    rw [mem_singleton.mp hv] at hres
    exact hnew.held hres
  case accounted =>
    intro a ha
    obtain ⟨u, hu, hid, hout⟩ := h.accounted a ha
    refine ⟨u, mem_append_left _ hu, hid, .inr (hout.resolve_left ?_)⟩
    rintro ⟨v, hv, -⟩
    rw [hnew.empty] at hv
    exact absurd hv not_mem_nil
  case proper =>
    intro a ha
    obtain ⟨u, hu, hproper⟩ := h.proper a ha
    exact ⟨u, mem_append_left _ hu, hproper⟩
  case once => exact h.once
  case named =>
    exact forall_mem_append.mpr ⟨h.named, forall_mem_singleton.mpr hnew.name⟩
  case numbered => exact hsnoc h.numbered hlast
  case spaced =>
    refine hsnoc h.spaced fun u hu => ?_
    obtain ⟨-, hpos, htime⟩ := h.past u hu
    have := hnew.gap (by omega)
    rw [hnew.now]
    omega
  case past =>
    intro u hu
    have hnow := hnew.now
    have hpos := hnew.pos
    rw [hnew.lastSent, ← hnew.number]
    rcases mem_append.mp hu with hu | hu
    · have := hlast u hu
      have := (h.past u hu).2.1
      exact ⟨by omega, by omega, by omega⟩
    · rw [mem_singleton.mp hu]
      exact ⟨Nat.le_refl _, by omega, by omega⟩
  case lastSent => rw [hnew.lastSent]
  case queue =>
    refine ⟨old ++ gone, ?_, hcut⟩
    rw [hsent', map_append, hsplit, map_singleton, hnew.now, append_assoc]
  case hourly =>
    intro hlimit
    have hbound := h.hourly hlimit
    rw [hsplit] at hbound
    rw [map_append, hsplit, map_singleton, hnew.now]
    exact hbound.snoc hcut (hroom hlimit)

end

end Keeps

namespace Legal

variable {cfg : TreasuryConfig} {clock : Int} {log : List Effect}

theorem keeps (h : Legal cfg clock log) :
    Keeps cfg clock (disk log) (created log) (submits log) (Evidence cfg log) := by
  induction h with
  | nil => exact .nil
  | advance _ hle ih => exact ih.advance hle
  | @snoc clock log e _ he ih =>
    have hlearn : Keeps cfg clock (disk log) (created log) (submits log)
        (Evidence cfg (log ++ [e])) :=
      ih.learn fun u hu => hu.mono (prefix_append _ _)
    have hquiet (l : TreasuryLedger) (hl : (disk log).after e = l)
        (hnew : createdBy (disk log) e = []) (hask : submits [e] = [])
        (hk : Keeps cfg clock l (created log) (submits log) (Evidence cfg (log ++ [e]))) :
        Keeps cfg clock (disk (log ++ [e])) (created (log ++ [e])) (submits (log ++ [e]))
          (Evidence cfg (log ++ [e])) := by
      rw [disk_snoc, created_snoc, submits_append, hl, hnew, hask, append_nil, append_nil]
      exact hk
    cases he with
    | refresh => exact hquiet _ rfl rfl rfl hlearn
    | record => exact hquiet _ rfl rfl rfl hlearn
    | status => exact hquiet _ rfl rfl rfl hlearn
    | @submit look hnow t hone hphase hfresh hproper r =>
      have hnone : createdBy (disk log) (.submit look t.req r) = [] := rfl
      rw [disk_snoc, created_snoc, submits_append, hnone, append_nil]
      exact hlearn.submit hone hphase hfresh hproper r
    | onward _ hcount hone hl hsame hphase =>
      refine hquiet _ rfl ?_ rfl (hlearn.onward hcount hone hl hsame hphase)
      rw [createdBy, hl, hone]
      exact filter_eq_nil_iff.mpr fun v hv hnot => by
        rw [mem_singleton.mp hv, all_eq_true] at hnot
        exact of_decide_eq_true (hnot _ (mem_singleton_self _)) hsame.clientId
    | gone _ hcount hone hl hout =>
      refine hquiet _ rfl (by rw [createdBy, hl]; rfl) rfl (hlearn.gone hcount hone hl ?_)
      intro u hu
      exact hout.imp_right fun hev => (hev.same hu).mono (prefix_append _ _)
    | @creates l _ t hnew =>
      have hone : createdBy (disk log) (.save l) = [t] := by
        rw [createdBy, hnew.one, hnew.empty]
        rfl
      have hnone : submits [.save l] = [] := rfl
      rw [disk_snoc, created_snoc, submits_append, hone, hnone, append_nil]
      exact hlearn.creates hnew

/-- The saved ledger is one the file can hold. -/
theorem saved_disk (h : Legal cfg clock log) : (disk log).saved = disk log := by
  induction h with
  | nil => rfl
  | advance _ _ ih => exact ih
  | snoc _ he ih =>
    rw [disk_snoc]
    cases he with
    | onward hform => exact hform
    | gone hform => exact hform
    | creates hform => exact hform
    | _ => exact ih

/-- The venue was last asked no later than the clock. -/
theorem asked (h : Legal cfg clock log) :
    ∀ a, a ∈ submits log ∨ a ∈ statuses log → a.look.nowNs ≤ clock := by
  induction h with
  | nil => exact fun a ha => ha.elim (absurd · not_mem_nil) (absurd · not_mem_nil)
  | advance _ hle ih => exact fun a ha => Int.le_trans (ih a ha) hle
  | @snoc clock log e _ he ih =>
    have hlast : ∀ a, a ∈ submits [e] ∨ a ∈ statuses [e] → a.look.nowNs ≤ clock := by
      intro a ha
      cases he with
      | status hnow =>
        obtain rfl := mem_singleton.mp (ha.resolve_left not_mem_nil)
        exact Int.le_of_eq hnow
      | submit hnow =>
        obtain rfl := mem_singleton.mp (ha.resolve_right not_mem_nil)
        exact Int.le_of_eq hnow
      | _ => exact ha.elim (absurd · not_mem_nil) (absurd · not_mem_nil)
    intro a ha
    rw [submits_append, statuses_append, mem_append, mem_append] at ha
    rcases ha with (ha | ha) | (ha | ha)
    · exact ih a (.inl ha)
    · exact hlast a (.inl ha)
    · exact ih a (.inr ha)
    · exact hlast a (.inr ha)

/-- What a log ends with was fit to happen. -/
theorem last {e : Effect} (h : Legal cfg clock (log ++ [e])) :
    ∃ now, Legal cfg now log ∧ Fits cfg now log e := by
  generalize hto : log ++ [e] = to' at h
  induction h with
  | nil => exact absurd hto (append_ne_nil_of_right_ne_nil _ (cons_ne_nil _ _))
  | advance _ _ ih => exact ih hto
  | @snoc now before d h he =>
    obtain ⟨hlog, hd⟩ := append_inj' hto rfl
    cases hd
    rw [hlog]
    exact ⟨now, h, he⟩

end Legal

end FastMM.Treasury
