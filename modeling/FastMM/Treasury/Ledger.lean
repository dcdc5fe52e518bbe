/-
  Treasury/Ledger.lean --- transfers, their client ids, the limiter and the saved ledger.

  Source: `include/fastmm/core/transfer.hpp`, `include/fastmm/core/treasury.hpp`,
  `src/core/treasury.cpp` (limiter, ledger, `client_id`).

  Times are wall-clock ns in `Int`.  A saved ledger is what its text holds.
-/
import FastMM.Treasury.Planner
set_option autoImplicit false

namespace FastMM.Treasury

open List

/-! ## Transfers -/

inductive TransferState where
  | pending
  | done
  | failed
  | notFound
  | unknown
  deriving DecidableEq, Repr

inductive TreasuryEventKind where
  | planned
  | sent
  | done
  | failed
  | timedOut
  | reserve
  | released
  deriving DecidableEq, Repr

/-- The venue's names of the accounts are filled in by whoever hands the request to the venue. -/
structure TransferRequest where
  clientId : List Char
  payer : VenueId
  payee : VenueId
  payerAccount : List Char := []
  payeeAccount : List Char := []
  asset : List Char
  amount : Notional
  createdMs : Int
  deriving DecidableEq, Repr

structure TransferResult where
  state : TransferState := .unknown
  venueRef : List Char := []
  detail : List Char := []
  deriving DecidableEq, Repr

inductive TreasuryTransfer.Phase where
  | created
  | submitted
  | unknown
  | reserving
  deriving DecidableEq, Repr

structure TreasuryTransfer where
  req : TransferRequest
  seq : Nat := 0
  phase : TreasuryTransfer.Phase := .created
  createdNs : Int := 0
  nextPollNs : Int := 0
  timedOut : Bool := false
  deriving DecidableEq, Repr

/-! ## Limiter -/

def kHourNs : Int := 3600000000000

structure TreasuryLimiter where
  lastSentNs : Int := 0
  cooldownUntilNs : Int := 0
  sent : List Int := []
  deriving DecidableEq, Repr

inductive TreasuryLimiter.Verdict where
  | ok
  | interval
  | hourly
  | cooldown
  deriving DecidableEq, Repr

namespace TreasuryLimiter

variable (cfg : TreasuryConfig)
variable (nowNs : Int)
variable (l : TreasuryLimiter)

/-- The send times of the last hour. -/
def expire : TreasuryLimiter :=
  { l with sent := l.sent.dropWhile fun t => t ≤ nowNs - kHourNs }

def check (limiter : TreasuryLimiter) :
    Verdict × TreasuryLimiter :=
  let l := limiter.expire nowNs
  if nowNs < l.cooldownUntilNs then (.cooldown, l)
  else if l.lastSentNs ≠ 0 ∧ nowNs - l.lastSentNs < cfg.minIntervalNs then (.interval, l)
  else if cfg.maxPerHour ≠ 0 ∧ cfg.maxPerHour ≤ l.sent.length then (.hourly, l)
  else (.ok, l)

def onSent : TreasuryLimiter :=
  { l with lastSentNs := nowNs, sent := l.sent ++ [nowNs] }

def coolDown : TreasuryLimiter :=
  { l with cooldownUntilNs := nowNs + cfg.cooldownNs }

theorem check_snd : (l.check cfg nowNs).2 = l.expire nowNs := by
  unfold check
  extract_lets l'
  split
  · rfl
  split
  · rfl
  split <;> rfl

/-- What an `ok` of the limiter says. -/
theorem check_ok {cfg : TreasuryConfig} {nowNs : Int} {l : TreasuryLimiter}
    (h : (l.check cfg nowNs).1 = .ok) :
    (l.lastSentNs ≠ 0 → cfg.minIntervalNs ≤ nowNs - l.lastSentNs) ∧
      (cfg.maxPerHour ≠ 0 → (l.expire nowNs).sent.length < cfg.maxPerHour) := by
  unfold check at h
  extract_lets l' at h
  split at h
  · cases h
  split at h
  · cases h
  split at h
  · cases h
  · rename_i hinterval hhourly
    refine ⟨fun hne => Int.not_lt.mp fun hlt => hinterval ⟨hne, hlt⟩, fun hne => ?_⟩
    exact Nat.not_le.mp fun hle => hhourly ⟨hne, hle⟩

end TreasuryLimiter

/-! ## Ledger -/

structure TreasuryLedger where
  seq : Nat := 0
  limiter : TreasuryLimiter := {}
  inFlight : List TreasuryTransfer := []
  deriving DecidableEq, Repr

/-- A transfer as the ledger's file has it. -/
def TreasuryTransfer.saved (t : TreasuryTransfer) : TreasuryTransfer :=
  { t with nextPollNs := 0, timedOut := false }

/-- What `serialize` writes, as `parse` reads it. -/
def TreasuryLedger.saved (l : TreasuryLedger) : TreasuryLedger :=
  { l with inFlight := l.inFlight.map TreasuryTransfer.saved }

/-- `TreasuryLedger::load`, of the ledger saved last. -/
def TreasuryLedger.load (cfg : TreasuryConfig) (file : TreasuryLedger) : TreasuryLedger :=
  if cfg.stateFile = [] then {} else file

/-! ## Client ids -/

def b36Digit (d : Nat) : Char :=
  if d < 10 then Char.ofNat ('0'.toNat + d) else Char.ofNat ('a'.toNat + d - 10)

/-- The digits of `v`, before those of `s`; `fuel` bounds their number. -/
def b36Digits : Nat → Nat → List Char → List Char
  | 0, _, s => s
  | fuel + 1, v, s =>
    if v / 36 = 0 then b36Digit (v % 36) :: s
    else b36Digits fuel (v / 36) (b36Digit (v % 36) :: s)

def b36 (v width : Nat) : List Char :=
  let s := b36Digits (v + 1) v []
  List.replicate (width - s.length) '0' ++ s

def clientId (cfg : TreasuryConfig) (nowNs : Int) (seq : Nat) : List Char :=
  let ms := if 0 < nowNs then (nowNs / 1000000).toNat else 0
  let primary := match cfg.members with
    | [] => 0
    | v :: _ => v.value
  ['f', 'm'] ++ b36 primary 1 ++ b36 ms 9 ++ b36 seq 1

/-- The value a character of an id stands for. -/
def b36Value (c : Char) : Nat :=
  if c.toNat < 'a'.toNat then c.toNat - '0'.toNat else c.toNat - 'a'.toNat + 10

/-- The number some digits stand for, after those of `n`. -/
def b36Read (n : Nat) (s : List Char) : Nat := s.foldl (fun n c => 36 * n + b36Value c) n

theorem b36Value_digit {d : Nat} (h : d < 36) : b36Value (b36Digit d) = d := by
  have hall : ∀ d : Fin 36, b36Value (b36Digit d) = d := by decide
  exact hall ⟨d, h⟩

theorem b36Read_cons (n v : Nat) (s : List Char) :
    b36Read n (b36Digit (v % 36) :: s) = b36Read (36 * n + v % 36) s := by
  show b36Read (36 * n + b36Value (b36Digit (v % 36))) s = _
  rw [b36Value_digit (Nat.mod_lt v (by decide))]

/-- The digits of a number read as it. -/
theorem b36Read_digits {fuel v : Nat} (h : v < fuel) (s : List Char) :
    b36Read 0 (b36Digits fuel v s) = b36Read v s := by
  induction fuel generalizing v s with
  | zero => omega
  | succ fuel ih =>
    rw [b36Digits]
    split_ifs with hlast
    · rw [b36Read_cons]
      congr 1
      omega
    · rw [ih (by omega), b36Read_cons]
      congr 1
      omega

theorem b36Read_b36 (v width : Nat) : b36Read 0 (b36 v width) = v := by
  have hpad : ∀ n, b36Read 0 (List.replicate n '0') = 0 := by
    intro n
    induction n with
    | zero => rfl
    | succ n ih => exact ih
  unfold b36 b36Read
  rw [foldl_append]
  have := b36Read_digits (Nat.lt_succ_self v) []
  unfold b36Read at hpad this
  rw [hpad]
  exact this

theorem b36_injective {v u width : Nat} (h : b36 v width = b36 u width) : v = u := by
  rw [← b36Read_b36 v width, h, b36Read_b36]

/-- A larger number has no fewer digits. -/
theorem length_digits_mono {f g v u : Nat} {s r : List Char} (hv : v < f) (hu : u < g)
    (hle : v ≤ u) (hlen : s.length = r.length) :
    (b36Digits f v s).length ≤ (b36Digits g u r).length := by
  have hgrow : ∀ (g u : Nat) (r : List Char), r.length ≤ (b36Digits g u r).length := by
    intro g
    induction g with
    | zero => exact fun _ _ => Nat.le_refl _
    | succ g ih =>
      intro u r
      rw [b36Digits]
      split
      · exact Nat.le_succ _
      · exact Nat.le_trans (Nat.le_succ _) (ih _ (_ :: r))
  induction f generalizing g v u s r with
  | zero => omega
  | succ f ih =>
    obtain ⟨g, rfl⟩ : ∃ k, g = k + 1 := ⟨g - 1, by omega⟩
    rw [b36Digits, b36Digits]
    by_cases hlast : v / 36 = 0
    · rw [if_pos hlast]
      split
      · rw [length_cons, length_cons, hlen]
      · have := hgrow g (u / 36) (b36Digit (u % 36) :: r)
        rw [length_cons] at this ⊢
        omega
    · have hquot : v / 36 ≤ u / 36 := Nat.div_le_div_right hle
      rw [if_neg hlast, if_neg (by omega)]
      exact ih (by omega) (by omega) hquot (by rw [length_cons, length_cons, hlen])

theorem length_b36_mono {v u : Nat} (h : v ≤ u) (width : Nat) :
    (b36 v width).length ≤ (b36 u width).length := by
  have := length_digits_mono (Nat.lt_add_one v) (Nat.lt_add_one u) h
    (Eq.refl ([] : List Char).length)
  unfold b36
  simp only [length_append, length_replicate]
  omega

/-- A later transfer with a later number has an id of its own. -/
theorem clientId_ne {cfg : TreasuryConfig} {a b : Int} {m n : Nat} (hab : a ≤ b) (hmn : m < n) :
    clientId cfg a m ≠ clientId cfg b n := by
  intro h
  unfold clientId at h
  extract_lets msA primary msB at h
  rw [append_assoc _ (b36 msA 9), append_assoc _ (b36 msB 9)] at h
  have htail : b36 msA 9 ++ b36 m 1 = b36 msB 9 ++ b36 n 1 := append_cancel_left h
  have hms : msA ≤ msB := by
    unfold msA msB
    split
    · rw [if_pos (by omega)]
      omega
    · exact Nat.zero_le _
  have hlong := length_b36_mono hms 9
  have hlong' := length_b36_mono (Nat.le_of_lt hmn) 1
  have hlen := congrArg List.length htail
  rw [length_append, length_append] at hlen
  have hparts := append_inj htail (by omega)
  exact absurd (b36_injective hparts.2) (Nat.ne_of_lt hmn)

end FastMM.Treasury
