/-
  Treasury/LedgerText.lean --- the ledger's file, written and read back.

  Source: `src/core/treasury.cpp` (`TreasuryLedger::serialize`, `words`, `number`,
  `TreasuryLedger::parse`).

  A record is its words with a blank between; a text is its records, each with the end of its line.
-/
import FastMM.Core.ScaledDecimal
import FastMM.Treasury.Ledger
set_option autoImplicit false

namespace FastMM.Treasury

open Foundation Fixed List TreasuryConfig TreasuryLedger

/-! ## Numbers -/

variable {ws : List (List Char)}
variable {raw : Int}

/-- `std::to_string`. -/
def numberText (n : Int) : List Char :=
  (if n < 0 then ['-'] else []) ++ Nat.toDigits 10 n.natAbs

/-- `number`, for the integers from `lo` to `hi`: a type without negative values takes no sign. -/
def number (lo hi : Int) (s : List Char) : Option Int :=
  let neg := decide (lo < 0) && s.head? == some '-'
  let ds := if neg then s.tail else s
  let n := withSign neg (numeral ds)
  if ds ≠ [] ∧ Digits ds ∧ lo ≤ n ∧ n ≤ hi then some n else none

def int64 : List Char → Option Int := number (-9223372036854775808) 9223372036854775807

def uint64 (s : List Char) : Option Nat := (number 0 18446744073709551615 s).map Int.toNat

/-! ## Accounts -/

/-- The members under their names. -/
def TreasuryConfig.accounts (cfg : TreasuryConfig) : List (List Char × VenueId) :=
  cfg.members.zipIdx.map fun m => (cfg.names.getD m.2 [], m.1)

/-- The name a transfer's account is written under. -/
def TreasuryConfig.nameOf (cfg : TreasuryConfig) (v : VenueId) : List Char :=
  if cfg.indexOf v < kMax then cfg.names.getD (cfg.indexOf v) [] else ['?']

def TreasuryConfig.account (cfg : TreasuryConfig) (name : List Char) : VenueId :=
  ((cfg.accounts.find? fun a => a.1 = name).map Prod.snd).getD .invalid

/-! ## Writing -/

def TreasuryTransfer.Phase.text : TreasuryTransfer.Phase → List Char
  | .reserving => ['r', 'e', 's', 'e', 'r', 'v', 'i', 'n', 'g']
  | .created => ['c', 'r', 'e', 'a', 't', 'e', 'd']
  | .submitted => ['s', 'u', 'b', 'm', 'i', 't', 't', 'e', 'd']
  | .unknown => ['u', 'n', 'k', 'n', 'o', 'w', 'n']

def kLedgerMagic : List Char :=
  ['f', 'a', 's', 't', 'm', 'm', '-', 't', 'r', 'e', 'a', 's', 'u', 'r', 'y', ' ', '1']

/-- The first words of the records. -/
inductive Record where
  | seq
  | lastSent
  | cooldownUntil
  | sent
  | transfer
  deriving DecidableEq, Repr

def Record.word : Record → List Char
  | .seq => ['s', 'e', 'q']
  | .lastSent => ['l', 'a', 's', 't', '_', 's', 'e', 'n', 't']
  | .cooldownUntil => ['c', 'o', 'o', 'l', 'd', 'o', 'w', 'n', '_', 'u', 'n', 't', 'i', 'l']
  | .sent => ['s', 'e', 'n', 't']
  | .transfer => ['t', 'r', 'a', 'n', 's', 'f', 'e', 'r']

def TreasuryTransfer.record (cfg : TreasuryConfig) (t : TreasuryTransfer) : List (List Char) :=
  [Record.word .transfer, t.req.clientId, t.phase.text, cfg.nameOf t.req.payer,
    cfg.nameOf t.req.payee, t.req.asset, toDecimal t.req.amount, numberText t.createdNs,
    numberText t.req.createdMs, numberText t.seq]

def TreasuryLedger.records (cfg : TreasuryConfig) (l : TreasuryLedger) : List (List (List Char)) :=
  [Record.word .seq, numberText l.seq] ::
    [Record.word .lastSent, numberText l.limiter.lastSentNs] ::
    [Record.word .cooldownUntil, numberText l.limiter.cooldownUntilNs] ::
    (l.limiter.sent.map fun t => [Record.word .sent, numberText t]) ++
      l.inFlight.map (TreasuryTransfer.record cfg)

def TreasuryLedger.serialize (cfg : TreasuryConfig) (l : TreasuryLedger) : List Char :=
  (kLedgerMagic :: (l.records cfg).map [' '].intercalate).flatMap fun line => line ++ ['\n']

/-! ## Reading -/

def words (line : List Char) : List (List Char) := (line.splitOn ' ').filter (· ≠ [])

def phaseOf (w : List Char) : Option TreasuryTransfer.Phase :=
  [.created, .submitted, .unknown, .reserving].find? fun p => p.text = w

/-- A transfer's record; without its last word in an older file. -/
def parseTransfer (cfg : TreasuryConfig) : List (List Char) → Except String TreasuryTransfer
  | _ :: id :: phase :: payer :: payee :: asset :: amount :: ns :: ms :: rest =>
    match phaseOf phase with
    | none => .error "bad phase"
    | some phase =>
      if !(cfg.account payer).valid || !(cfg.account payee).valid then
        .error ("transfer " ++ String.ofList id ++ " names an account that is not in the pool (" ++
          String.ofList payer ++ " -> " ++ String.ofList payee ++
          "); resolve it with the venue and remove the line")
      else
        match Fixed.parse amount with
        | none => .error "bad amount"
        | some amount =>
          match int64 ns, int64 ms with
          | some ns, some ms =>
            match (rest.head?.map uint64).getD (some 0) with
            | none => .error "bad seq"
            | some seq =>
              .ok
                { req :=
                    { clientId := id, payer := cfg.account payer, payee := cfg.account payee,
                      asset := asset, amount := amount, createdMs := ms }
                  seq := seq, phase := phase, createdNs := ns }
          | _, _ => .error "bad time"
  | _ => .error "unknown record"

/-- A number under its record's first word. -/
def readNumber {α : Type} (n : Option α) (why : String) (set : α → TreasuryLedger) :
    Except String TreasuryLedger :=
  match n with
  | some n => .ok (set n)
  | none => .error why

def parseRecord (cfg : TreasuryConfig) (l : TreasuryLedger) (w : List (List Char)) :
    Except String TreasuryLedger :=
  match w with
  | [] => .ok l
  | [k, x] =>
    if k = Record.word .seq then readNumber (uint64 x) "bad seq" fun n => { l with seq := n }
    else if k = Record.word .lastSent then
      readNumber (int64 x) "bad last_sent" fun t =>
        { l with limiter := { l.limiter with lastSentNs := t } }
    else if k = Record.word .cooldownUntil then
      readNumber (int64 x) "bad cooldown_until" fun t =>
        { l with limiter := { l.limiter with cooldownUntilNs := t } }
    else if k = Record.word .sent then
      readNumber (int64 x) "bad sent" fun t =>
        { l with limiter := { l.limiter with sent := l.limiter.sent ++ [t] } }
    else .error "unknown record"
  | k :: _ =>
    if k = Record.word .transfer ∧ (w.length = 9 ∨ w.length = 10) then
      match parseTransfer cfg w with
      | .ok t => .ok { l with inFlight := l.inFlight ++ [t] }
      | .error why => .error why
    else .error "unknown record"

def parseLines (cfg : TreasuryConfig) :
    Nat → Bool → TreasuryLedger → List (List Char) → Except String TreasuryLedger
  | _, _, l, [] => .ok l
  | lineNo, header, l, line :: rest =>
    let bad := fun why : String =>
      Except.error ("treasury ledger line " ++ toString lineNo ++ ": " ++ why)
    if line = [] then parseLines cfg (lineNo + 1) header l rest
    else if !header then
      if line = kLedgerMagic then parseLines cfg (lineNo + 1) true l rest
      else bad "not a treasury ledger"
    else
      match parseRecord cfg l (words line) with
      | .ok l => parseLines cfg (lineNo + 1) true l rest
      | .error why => bad why

def TreasuryLedger.parse (cfg : TreasuryConfig) (text : List Char) : Except String TreasuryLedger :=
  parseLines cfg 1 false {} (text.splitOn '\n')

/-! ## Words -/

/-- A word of a record. -/
def Word (s : List Char) : Prop := s ≠ [] ∧ ' ' ∉ s ∧ '\n' ∉ s

instance (s : List Char) : Decidable (Word s) := inferInstanceAs (Decidable (_ ∧ _ ∧ _))

theorem words_intercalate (h : ∀ w ∈ ws, Word w) (hne : ws ≠ []) :
    words ([' '].intercalate ws) = ws := by
  unfold words
  rw [splitOn_intercalate ' ' (fun w hw => (h w hw).2.1) hne]
  exact filter_eq_self.mpr fun w hw => decide_eq_true (h w hw).1

theorem digits_word {ds : List Char} (hds : Digits ds) (hne : ds ≠ []) : Word ds :=
  ⟨hne, fun h => absurd (hds ' ' h) (by decide), fun h => absurd (hds '\n' h) (by decide)⟩

theorem toDigits_spec (n : Nat) :
    Digits (Nat.toDigits 10 n) ∧ Nat.toDigits 10 n ≠ [] ∧ numeral (Nat.toDigits 10 n) = n := by
  refine ⟨fun c hc => Nat.isDigit_of_mem_toDigits (by decide) (by decide) hc,
    Nat.toDigits_ne_nil, ?_⟩
  have hread := Nat.ofDigitChars_toDigits (b := 10) (n := n) (by decide) (by decide)
  rw [Nat.ofDigitChars_eq_foldl] at hread
  conv_rhs => rw [← hread]
  unfold numeral digitVal
  congr 1
  funext m c
  rw [Nat.mul_comm]
  rfl

theorem numberText_word (n : Int) : Word (numberText n) := by
  obtain ⟨hds, hne, -⟩ := toDigits_spec n.natAbs
  obtain ⟨-, hblank, hend⟩ := digits_word hds hne
  unfold numberText
  refine ⟨fun h => hne (append_eq_nil_iff.mp h).2, fun h => ?_, fun h => ?_⟩
  · rcases mem_append.mp h with h | h
    · split at h <;> simp at h
    · exact hblank h
  · rcases mem_append.mp h with h | h
    · split at h <;> simp at h
    · exact hend h

theorem number_numberText {lo hi n : Int} (hlo : lo ≤ n) (hhi : n ≤ hi) :
    number lo hi (numberText n) = some n := by
  obtain ⟨hds, hne, hworth⟩ := toDigits_spec n.natAbs
  unfold number numberText
  by_cases hneg : n < 0
  · have hlo' : lo < 0 := by omega
    have hvalue : withSign true n.natAbs = n := by
      unfold withSign
      rw [if_pos rfl]
      omega
    simp [hneg, hlo', hds, hne, hworth, hvalue, hlo, hhi]
  · have hhead : ((Nat.toDigits 10 n.natAbs).head? == some '-') = false := beq_eq_false_iff_ne.mpr
      fun h => absurd (hds '-' (mem_of_head? h)) (by decide)
    have hvalue : withSign false n.natAbs = n := by
      unfold withSign
      rw [if_neg Bool.false_ne_true]
      omega
    simp [hneg, hhead, hds, hne, hworth, hvalue, hlo, hhi]

section

variable (hraw : |raw| ≤ Fixed.kMax)
include hraw

theorem toDecimal_chars : toDecimal raw ≠ [] ∧
      ∀ c ∈ toDecimal raw, c = '-' ∨ c = '.' ∨ c.isDigit = true := by
  have hwhole : raw.natAbs / 100000000 < 10 ^ 20 := by
    rw [Int.abs_eq_natAbs] at hraw
    have hle : raw.natAbs ≤ Fixed.kMax := by exact_mod_cast hraw
    unfold Fixed.kMax at hle
    omega
  have hints := (tmpDigits_spec hwhole).1
  have hfracs : Digits (fracDigits kFixedDecimals (raw.natAbs % 100000000)) :=
    (fracDigits_spec (Nat.mod_lt _ (by decide))).1
  unfold toDecimal
  dsimp only
  refine ⟨fun h => ?_, fun c hc => ?_⟩
  · have hnil := (append_eq_nil_iff.mp (append_eq_nil_iff.mp h).1).2
    rw [tmpDigits, reverse_cons] at hnil
    exact cons_ne_nil _ _ (append_eq_nil_iff.mp hnil).2
  rcases mem_append.mp hc with hc | hc
  · rcases mem_append.mp hc with hc | hc
    · split at hc
      · exact .inl (mem_singleton.mp hc)
      · exact absurd hc not_mem_nil
    · exact .inr (.inr (hints c hc))
  · split at hc
    · rcases mem_cons.mp hc with rfl | hc
      · exact .inr (.inl rfl)
      · have hin := (dropWhile_sublist _).mem (mem_reverse.mp hc)
        exact .inr (.inr (hfracs c (mem_reverse.mp hin)))
    · exact absurd hc not_mem_nil

theorem toDecimal_word : Word (Fixed.toDecimal raw) := by
  obtain ⟨hne, hchars⟩ := toDecimal_chars hraw
  refine ⟨hne, fun h => ?_, fun h => ?_⟩
  · exact absurd (hchars ' ' h) (by decide)
  · exact absurd (hchars '\n' h) (by decide)

theorem parse_toDecimal : Fixed.parse (toDecimal raw) = some raw := by
  rw [parse_eq_fromDecimal, fromDecimal_toDecimal hraw]
  intro c hc
  rcases (toDecimal_chars hraw).2 c hc with rfl | rfl | hdigit
  · decide
  · decide
  · constructor <;> (rintro rfl; exact absurd hdigit (by decide))

end

/-! ## Names -/

/-- A configuration whose members have names of their own, which are words. -/
structure Named (cfg : TreasuryConfig) : Prop where
  room : cfg.members.length ≤ TreasuryConfig.kMax
  distinct : (cfg.accounts.map Prod.fst).Nodup
  word : ∀ a ∈ cfg.accounts, Word a.1

variable {cfg cfg' : TreasuryConfig}

theorem nameOf_mem (h : Named cfg) {v : VenueId} (hv : v ∈ cfg.members) :
    (cfg.nameOf v, v) ∈ cfg.accounts := by
  obtain ⟨hlt, hat⟩ := getD_indexOf hv
  unfold nameOf accounts
  rw [if_pos (Nat.lt_of_lt_of_le hlt h.room)]
  refine mem_map.mpr ⟨(v, cfg.indexOf v), ?_, rfl⟩
  rw [getD_eq_getElem?_getD, getElem?_eq_getElem hlt] at hat
  rw [mem_zipIdx_iff_getElem?, getElem?_eq_getElem hlt]
  exact congrArg some hat

/-- An account's name is read as it, wherever it is listed. -/
theorem account_nameOf (h : Named cfg) (hsame : cfg'.accounts.Perm cfg.accounts) {v : VenueId}
    (hv : v ∈ cfg.members) : cfg'.account (cfg.nameOf v) = v := by
  have hin := hsame.mem_iff.mpr (nameOf_mem h hv)
  have hdistinct : (cfg'.accounts.map Prod.fst).Nodup :=
    (hsame.map Prod.fst).nodup_iff.mpr h.distinct
  unfold account
  cases hfind : cfg'.accounts.find? fun a => a.1 = cfg.nameOf v with
  | none => exact absurd (decide_eq_true rfl) (List.find?_eq_none.mp hfind _ hin)
  | some a =>
    have hname := find?_some hfind
    rw [decide_eq_true_iff] at hname
    have heq := inj_on_of_nodup_map hdistinct (mem_of_find?_eq_some hfind) hin hname
    rw [heq]
    rfl

/-! ## A record read back -/

variable {l l' : TreasuryLedger} {t : TreasuryTransfer} {n : Nat} {rest : List (List Char)}

/-- A value of an `int64_t`. -/
def Int64 (n : Int) : Prop := -9223372036854775808 ≤ n ∧ n ≤ 9223372036854775807

theorem int64_numberText {n : Int} (h : Int64 n) : int64 (numberText n) = some n :=
  number_numberText h.1 h.2

theorem uint64_numberText {n : Nat} (h : n < 2 ^ 64) : uint64 (numberText n) = some n := by
  unfold uint64
  rw [number_numberText (by omega) (by omega), Option.map_some, Int.toNat_natCast]

theorem mem_intercalate {c : Char} (h : c ∈ [' '].intercalate ws) : c = ' ' ∨ ∃ w ∈ ws, c ∈ w := by
  induction ws with
  | nil => exact absurd h not_mem_nil
  | cons w ws ih =>
    cases ws with
    | nil =>
      rw [intercalate_singleton] at h
      exact .inr ⟨w, mem_cons_self, h⟩
    | cons x ws =>
      rw [intercalate_cons_cons] at h
      simp only [mem_append, mem_singleton] at h
      rcases h with (h | h) | h
      · exact .inr ⟨w, mem_cons_self, h⟩
      · exact .inl h
      · rcases ih h with h | ⟨y, hy, hc⟩
        · exact .inl h
        · exact .inr ⟨y, mem_cons_of_mem w hy, hc⟩

theorem lines_flatMap {ls : List (List Char)} (h : ∀ line ∈ ls, '\n' ∉ line) :
    (ls.flatMap fun line => line ++ ['\n']).splitOn '\n' = ls ++ [[]] := by
  induction ls with
  | nil => rfl
  | cons line ls ih =>
    rw [flatMap_cons, append_assoc, singleton_append,
      splitOn_append_cons_self_of_not_mem (h line mem_cons_self),
      ih fun line hline => h line (mem_cons_of_mem _ hline)]
    rfl

/-- One record is read. -/
theorem parseLines_record {w : List (List Char)} (hw : ∀ x ∈ w, Word x) (hne : w ≠ [])
    (h : parseRecord cfg l w = .ok l') :
    parseLines cfg n true l ([' '].intercalate w :: rest) =
      parseLines cfg (n + 1) true l' rest := by
  have hline : [' '].intercalate w ≠ [] := by
    intro hnil
    have hwords := words_intercalate hw hne
    rw [hnil] at hwords
    exact hne hwords.symm
  rw [parseLines, if_neg hline, words_intercalate hw hne, h]
  rfl

theorem parseLines_sent {sent : List Int} (h : ∀ t ∈ sent, Int64 t) : parseLines cfg n true l
        ((sent.map fun t => [' '].intercalate [Record.word .sent, numberText t]) ++ rest) =
      parseLines cfg (n + sent.length) true
        { l with limiter := { l.limiter with sent := l.limiter.sent ++ sent } } rest := by
  induction sent generalizing l n with
  | nil => rw [append_nil]; rfl
  | cons t sent ih =>
    have hone : parseRecord cfg l [Record.word .sent, numberText t] =
        .ok { l with limiter := { l.limiter with sent := l.limiter.sent ++ [t] } } := by
      unfold parseRecord
      simp only
      rw [if_neg (by decide), if_neg (by decide), if_neg (by decide), if_pos trivial,
        int64_numberText (h t mem_cons_self)]
      rfl
    have hw : ∀ x ∈ [Record.word .sent, numberText t], Word x :=
      forall_mem_cons.mpr ⟨by decide, forall_mem_singleton.mpr (numberText_word t)⟩
    rw [map_cons, cons_append, parseLines_record hw (cons_ne_nil _ _) hone,
      ih fun t ht => h t (mem_cons_of_mem _ ht), length_cons]
    simp only [append_assoc, singleton_append]
    congr 1
    omega

/-- A transfer between two members that its record says everything of. -/
structure TreasuryTransfer.Fits (cfg : TreasuryConfig) (t : TreasuryTransfer) : Prop where
  payer : t.req.payer ∈ cfg.members ∧ t.req.payer.valid = true
  payee : t.req.payee ∈ cfg.members ∧ t.req.payee.valid = true
  id : Word t.req.clientId
  asset : Word t.req.asset
  amount : |t.req.amount| ≤ Fixed.kMax
  createdNs : Int64 t.createdNs
  createdMs : Int64 t.req.createdMs
  seq : t.seq < 2 ^ 64

/-- A transfer as its record says it. -/
def TreasuryTransfer.written (t : TreasuryTransfer) : TreasuryTransfer :=
  { t with
    req := { t.req with payerAccount := [], payeeAccount := [] }
    nextPollNs := 0
    timedOut := false }

theorem phaseOf_text (p : TreasuryTransfer.Phase) : phaseOf p.text = some p := by
  cases p <;> decide

theorem word_record (hcfg : Named cfg) (ht : t.Fits cfg) : ∀ x ∈ t.record cfg, Word x := by
  intro x hx
  unfold TreasuryTransfer.record at hx
  simp only [mem_cons, not_mem_nil, or_false] at hx
  rcases hx with rfl | rfl | rfl | rfl | rfl | rfl | rfl | rfl | rfl | rfl
  · decide
  · exact ht.id
  · cases t.phase <;> decide
  · exact hcfg.word _ (nameOf_mem hcfg ht.payer.1)
  · exact hcfg.word _ (nameOf_mem hcfg ht.payee.1)
  · exact ht.asset
  · exact toDecimal_word ht.amount
  · exact numberText_word _
  · exact numberText_word _
  · exact numberText_word _

theorem parseRecord_transfer (hcfg : Named cfg) (hsame : cfg'.accounts.Perm cfg.accounts)
    (ht : t.Fits cfg) :
    parseRecord cfg' l (t.record cfg) = .ok { l with inFlight := l.inFlight ++ [t.written] } := by
  unfold parseRecord TreasuryTransfer.record
  simp only
  rw [if_pos ⟨trivial, .inr rfl⟩]
  unfold parseTransfer
  simp only [phaseOf_text, account_nameOf hcfg hsame ht.payer.1,
    account_nameOf hcfg hsame ht.payee.1, ht.payer.2, ht.payee.2, parse_toDecimal ht.amount,
    int64_numberText ht.createdNs, int64_numberText ht.createdMs, head?_cons, Option.map_some,
    uint64_numberText ht.seq, Option.getD_some]
  rfl

theorem parseLines_transfers (hcfg : Named cfg) (hsame : cfg'.accounts.Perm cfg.accounts)
    {ts : List TreasuryTransfer} (h : ∀ t ∈ ts, t.Fits cfg) :
    parseLines cfg' n true l ((ts.map fun t => [' '].intercalate (t.record cfg)) ++ rest) =
      parseLines cfg' (n + ts.length) true
        { l with inFlight := l.inFlight ++ ts.map TreasuryTransfer.written } rest := by
  induction ts generalizing l n with
  | nil => rw [map_nil, map_nil, append_nil]; rfl
  | cons t ts ih =>
    have ht := h t mem_cons_self
    rw [map_cons, cons_append, parseLines_record (word_record hcfg ht)
      (cons_ne_nil _ _) (parseRecord_transfer hcfg hsame ht),
      ih fun t ht => h t (mem_cons_of_mem _ ht), length_cons]
    simp only [append_assoc, singleton_append, map_cons]
    congr 1
    omega

/-! ## The ledger read back -/

/-- A ledger whose transfers are between members. -/
structure TreasuryLedger.Fits (cfg : TreasuryConfig) (l : TreasuryLedger) : Prop where
  seq : l.seq < 2 ^ 64
  lastSent : Int64 l.limiter.lastSentNs
  cooldownUntil : Int64 l.limiter.cooldownUntilNs
  sent : ∀ t ∈ l.limiter.sent, Int64 t
  inFlight : ∀ t ∈ l.inFlight, t.Fits cfg

def TreasuryLedger.written (l : TreasuryLedger) : TreasuryLedger :=
  { l with inFlight := l.inFlight.map TreasuryTransfer.written }

theorem parse_serialize (hcfg : Named cfg) (hsame : cfg'.accounts.Perm cfg.accounts)
    (h : l.Fits cfg) : TreasuryLedger.parse cfg' (l.serialize cfg) = .ok l.written := by
  have hrecord : ∀ w ∈ l.records cfg, ∀ x ∈ w, Word x := by
    intro w hw
    have htwo : ∀ (k : Record) (n : Int), ∀ x ∈ [k.word, numberText n], Word x := fun k n =>
      forall_mem_cons.mpr ⟨by cases k <;> decide, forall_mem_singleton.mpr (numberText_word n)⟩
    simp only [records, cons_append, mem_cons, mem_append, mem_map] at hw
    rcases hw with rfl | rfl | rfl | ⟨s, -, rfl⟩ | ⟨t, ht, rfl⟩
    · exact htwo _ _
    · exact htwo _ _
    · exact htwo _ _
    · exact htwo _ _
    · exact word_record hcfg (h.inFlight t ht)
  have hlines : ∀ line ∈ kLedgerMagic :: (l.records cfg).map [' '].intercalate, '\n' ∉ line := by
    intro line hline hin
    rcases mem_cons.mp hline with rfl | hline
    · exact absurd hin (by decide)
    obtain ⟨w, hw, rfl⟩ := mem_map.mp hline
    rcases mem_intercalate hin with hblank | ⟨x, hx, hin⟩
    · exact absurd hblank (by decide)
    · exact (hrecord w hw x hx).2.2 hin
  have hone : ∀ (k : Record) (n : Int), ∀ x ∈ [k.word, numberText n], Word x := fun k n =>
    forall_mem_cons.mpr ⟨by cases k <;> decide, forall_mem_singleton.mpr (numberText_word n)⟩
  have hseq : parseRecord cfg' {} [Record.word .seq, numberText l.seq] =
      .ok { seq := l.seq } := by
    unfold parseRecord
    simp only
    rw [if_pos trivial, uint64_numberText h.seq]
    rfl
  have hlast : parseRecord cfg' { seq := l.seq }
      [Record.word .lastSent, numberText l.limiter.lastSentNs] =
      .ok { seq := l.seq, limiter := { lastSentNs := l.limiter.lastSentNs } } := by
    unfold parseRecord
    simp only
    rw [if_neg (by decide), if_pos trivial, int64_numberText h.lastSent]
    rfl
  have hcool : parseRecord cfg' { seq := l.seq, limiter := { lastSentNs := l.limiter.lastSentNs } }
      [Record.word .cooldownUntil, numberText l.limiter.cooldownUntilNs] =
      .ok { seq := l.seq, limiter := { l.limiter with sent := [] } } := by
    unfold parseRecord
    simp only
    rw [if_neg (by decide), if_neg (by decide), if_pos trivial, int64_numberText h.cooldownUntil]
    rfl
  unfold TreasuryLedger.parse serialize
  rw [lines_flatMap hlines]
  simp only [records, cons_append, map_cons, map_append, map_map, Function.comp_def, append_assoc]
  rw [parseLines, if_neg (by decide), if_pos (by decide), if_pos rfl,
    parseLines_record (hone _ _) (cons_ne_nil _ _) hseq,
    parseLines_record (hone _ _) (cons_ne_nil _ _) hlast,
    parseLines_record (hone _ _) (cons_ne_nil _ _) hcool, parseLines_sent h.sent,
    parseLines_transfers hcfg hsame h.inFlight]
  rfl

/-! ## Any text -/

/-- The word a transfer's line starts with. -/
def Transfers (line : List Char) : Prop := (words line).head? = some (Record.word .transfer)

instance (line : List Char) : Decidable (Transfers line) :=
  inferInstanceAs (Decidable (_ = _))

/-- A record that is read is a transfer's or leaves the transfers as they are. -/
theorem parseRecord_inFlight {w : List (List Char)} (h : parseRecord cfg l w = .ok l') :
    (w.head? ≠ some (Record.word .transfer) ∧ l'.inFlight = l.inFlight) ∨
      (w.head? = some (Record.word .transfer) ∧
        ∃ t, parseTransfer cfg w = .ok t ∧ l'.inFlight = l.inFlight ++ [t]) := by
  have hnumber : ∀ {α : Type} {m : Option α} {why : String} {set : α → TreasuryLedger},
      readNumber m why set = .ok l' → (∀ a, (set a).inFlight = l.inFlight) →
      l'.inFlight = l.inFlight := by
    intro α m why set hread hset
    cases m with
    | none => cases hread
    | some a =>
      cases hread
      exact hset a
  unfold parseRecord at h
  split at h
  · cases h
    exact .inl ⟨nofun, rfl⟩
  · rename_i k x
    left
    have hother : ∀ {r : Record}, k = r.word → r.word ≠ Record.word .transfer →
        [k, x].head? ≠ some (Record.word .transfer) :=
      fun hk hr h => hr (hk.symm.trans (Option.some.inj h))
    split at h
    · exact ⟨hother ‹_› (by decide), hnumber h fun _ => rfl⟩
    split at h
    · exact ⟨hother ‹_› (by decide), hnumber h fun _ => rfl⟩
    split at h
    · exact ⟨hother ‹_› (by decide), hnumber h fun _ => rfl⟩
    split at h
    · exact ⟨hother ‹_› (by decide), hnumber h fun _ => rfl⟩
    · cases h
  · split at h
    · rename_i hk
      cases hread : parseTransfer cfg _ with
      | error why =>
        simp [hread] at h
      | ok t =>
        rw [hread] at h
        cases h
        exact .inr ⟨congrArg some hk.1, t, rfl, rfl⟩
    · cases h

theorem parseLines_inFlight {header : Bool} {lines : List (List Char)}
    (h : parseLines cfg n header l lines = .ok l') :
    ∃ ts, l'.inFlight = l.inFlight ++ ts ∧
      List.Forall₂ (fun line t => parseTransfer cfg (words line) = .ok t)
        (lines.filter Transfers) ts := by
  induction lines generalizing n header l with
  | nil =>
    cases h
    exact ⟨[], (append_nil _).symm, .nil⟩
  | cons line rest ih =>
    rw [parseLines] at h
    by_cases hempty : line = []
    · rw [if_pos hempty] at h
      obtain ⟨ts, hts, hall⟩ := ih h
      subst hempty
      exact ⟨ts, hts, by rw [filter_cons_of_neg (by decide)]; exact hall⟩
    rw [if_neg hempty] at h
    by_cases hheader : (!header) = true
    · rw [if_pos hheader] at h
      split at h
      · rename_i hmagic
        obtain ⟨ts, hts, hall⟩ := ih h
        subst hmagic
        exact ⟨ts, hts, by rw [filter_cons_of_neg (by decide)]; exact hall⟩
      · cases h
    · rw [if_neg hheader] at h
      cases hread : parseRecord cfg l (words line) with
      | error why =>
        simp [hread] at h
      | ok l₁ =>
        rw [hread] at h
        obtain ⟨ts, hts, hall⟩ := ih h
        rcases parseRecord_inFlight hread with ⟨hhead, hsame⟩ | ⟨hhead, t, ht, hone⟩
        · have hnot : ¬Transfers line := hhead
          refine ⟨ts, by rw [hts, hsame], ?_⟩
          rw [filter_cons, if_neg fun hin => hnot (of_decide_eq_true hin)]
          exact hall
        · have hstarts : Transfers line := hhead
          refine ⟨t :: ts, by rw [hts, hone, append_assoc]; rfl, ?_⟩
          rw [filter_cons, if_pos (decide_eq_true hstarts)]
          exact .cons ht hall

/-- A ledger written is read back under every configuration that lists its accounts under the same
names; and what is read of any text has one transfer for each line of one, in their order. -/
theorem ledger_survives : (∀ (cfg cfg' : TreasuryConfig) (l : TreasuryLedger), Named cfg →
      cfg'.accounts.Perm cfg.accounts → l.Fits cfg →
      TreasuryLedger.parse cfg' (l.serialize cfg) = .ok l.written) ∧
    ∀ (cfg : TreasuryConfig) (text : List Char) (l : TreasuryLedger),
      TreasuryLedger.parse cfg text = .ok l →
      List.Forall₂ (fun line t => parseTransfer cfg (words line) = .ok t)
        ((text.splitOn '\n').filter Transfers) l.inFlight := by
  refine ⟨fun _ _ _ hcfg hsame hfits => parse_serialize hcfg hsame hfits, fun cfg text l h => ?_⟩
  obtain ⟨ts, hts, hall⟩ := parseLines_inFlight h
  rw [hts]
  exact hall

/-- Two accounts, in either order. -/
def pair (swapped : Bool) : TreasuryConfig where
  members := if swapped then [⟨1⟩, ⟨0⟩] else [⟨0⟩, ⟨1⟩]
  names := if swapped then [['b'], ['a']] else [['a'], ['b']]
  shares := { demand := fun _ _ _ => 0, weight := fun _ _ => 0, weighed := true, keep := id }

/-- A ledger with one transfer in flight. -/
def oneInFlight (amount : Notional) (account : List Char) : TreasuryLedger where
  seq := 1
  limiter := { lastSentNs := 5, sent := [5] }
  inFlight :=
    [{ req :=
        { clientId := ['f', 'm', '0'], payer := ⟨0⟩, payee := ⟨1⟩, payerAccount := account,
          asset := ['U'], amount := amount, createdMs := -1 }
       seq := 1
       createdNs := 5
       nextPollNs := 7 }]

theorem ledger_survives_swapped :
    TreasuryLedger.parse (pair true) ((oneInFlight 150000000 []).serialize (pair false)) =
      .ok (oneInFlight 150000000 []).written := by
  refine ledger_survives.1 (pair false) (pair true) (oneInFlight 150000000 []) ?_ ?_ ?_
  · exact ⟨by decide, by decide, by decide⟩
  · decide
  refine ⟨by decide, by unfold Int64; decide, by unfold Int64; decide, ?_, ?_⟩
  · exact forall_mem_singleton.mpr (by unfold Int64; decide)
  · exact forall_mem_singleton.mpr ⟨by decide, by decide, by decide, by decide, by decide,
      by unfold Int64; decide, by unfold Int64; decide, by decide⟩

/-- The least amount of the type is written and not read; the venue's names of the accounts are not
written. -/
theorem not_ledger_survives : TreasuryLedger.parse (pair false)
        ((oneInFlight (-9223372036854775808) []).serialize (pair false)) =
      .error "treasury ledger line 6: bad amount" ∧
    TreasuryLedger.parse (pair false) ((oneInFlight 150000000 ['m']).serialize (pair false)) =
      .ok (oneInFlight 150000000 []).written := by
  decide +kernel

end FastMM.Treasury
