/-
  Fix/Parsed.lean --- what holds of a view that has parsed.

  The direct table is right after every parse, whatever came before it and however it ended.  A
  message that parses has its sum in its trailer, so none of its bytes can be another.
-/
import FastMM.Fix.View
set_option autoImplicit false

namespace FastMM.Fix

open Foundation FixBuilder Function List

namespace FixView

/-! ## The direct table -/

variable (v : FixView)

/-- The direct table has the place of the first entry of each tag. -/
def Indexed : Prop := ∀ tag, tag < kDirectTags →
  v.direct tag = (v.entries.findIdx? fun e => decide (e.tag = tag)).elim 0 (· + 1)

/-- Nothing is indexed. -/
def Cleared : Prop := v.entries = [] ∧ ∀ tag, tag < kDirectTags → v.direct tag = 0

/-- The fields that were parsed. -/
def fields : List (Nat × Bytes) :=
  v.entries.map fun e => (e.tag, slice e.off.toNat e.len.toNat v.msg)

section Indexed

variable {v : FixView} {tag off len : Nat}
variable (calls : List (Bytes × Bytes × Bool))

theorem field_eq (v : FixView) (i : Nat) : v.field i = v.fields[i]? := by
  unfold field fields
  rw [getElem?_map]

theorem Cleared.indexed (h : v.Cleared) : v.Indexed := by
  intro tag htag
  rw [h.1, h.2 tag htag]
  rfl

section

variable (h : v.Indexed)
include h

theorem Indexed.add (tag off len : Nat) : (v.add tag off len).Indexed := by
  unfold FixView.add
  split
  · exact h
  intro t ht
  show (if tag < kDirectTags ∧ v.direct tag = 0 then _ else v.direct) t =
    ((v.entries ++ [(⟨tag, .ofNat off, .ofNat len⟩ : Entry)]).findIdx? _).elim 0 _
  rw [findIdx?_append]
  have hold := h t ht
  cases hfind : v.entries.findIdx? fun e => decide (e.tag = t) with
  | some i =>
    rw [hfind] at hold
    have hne : ¬ (tag < kDirectTags ∧ v.direct tag = 0 ∧ t = tag) := by
      rintro ⟨-, hzero, rfl⟩
      rw [hzero] at hold
      exact absurd hold.symm (Nat.succ_ne_zero i)
    rw [Option.some_or]
    split_ifs with hset
    · rw [update_of_ne fun he => hne ⟨hset.1, hset.2, he⟩]
      exact hold
    · exact hold
  | none =>
    rw [hfind] at hold
    rw [Option.none_or, findIdx?_singleton]
    by_cases hsame : tag = t
    · subst hsame
      rw [if_pos ⟨ht, hold⟩, update_self]
      simp
    rw [show ite (decide (tag = t) = true) (some 0) none = none from
      if_neg (by simpa using hsame)]
    split
    · rw [update_of_ne fun he => hsame he.symm]
      exact hold
    · exact hold

/-- The table is cleared from the entries there are. -/
theorem Indexed.clearIndex : v.clearIndex.Cleared := by
  refine ⟨rfl, fun tag htag => ?_⟩
  have hfold : ∀ (es : List Entry) (d : Nat → Nat), (∃ e ∈ es, e.tag = tag) ∨ d tag = 0 →
      es.foldl (fun d e => if e.tag < kDirectTags then update d e.tag 0 else d) d tag = 0 := by
    intro es
    induction es with
    | nil =>
      rintro d (⟨e, he, -⟩ | hd)
      · exact absurd he not_mem_nil
      · exact hd
    | cons e es ih =>
      intro d hd
      rw [foldl_cons]
      refine ih _ ?_
      by_cases hsame : e.tag = tag
      · refine .inr ?_
        rw [if_pos (hsame ▸ htag), hsame, update_self]
      rcases hd with ⟨e', he', htag'⟩ | hd
      · rcases mem_cons.mp he' with rfl | he'
        · exact absurd htag' hsame
        · exact .inl ⟨e', he', htag'⟩
      · refine .inr ?_
        split
        · rw [update_of_ne fun h => hsame h.symm]
          exact hd
        · exact hd
  refine hfold v.entries v.direct ?_
  have hold := h tag htag
  cases hfind : v.entries.findIdx? fun e => decide (e.tag = tag) with
  | none =>
    rw [hfind] at hold
    exact .inr hold
  | some i =>
    obtain ⟨hlt, hi, -⟩ := List.findIdx?_eq_some_iff_getElem.mp hfind
    exact .inl ⟨_, getElem_mem hlt, of_decide_eq_true hi⟩

/-- The first of a tag is found. -/
theorem Indexed.find (tag : Nat) :
    v.find tag 0 = v.fields.findIdx? fun f => decide (f.1 = tag) := by
  have hmap : v.fields.findIdx? (fun f => decide (f.1 = tag)) =
      v.entries.findIdx? fun e => decide (e.tag = tag) := by
    unfold fields
    rw [findIdx?_map]
    rfl
  unfold FixView.find
  rw [hmap]
  split
  · rename_i htag
    rw [h tag htag.1]
    cases v.entries.findIdx? fun e => decide (e.tag = tag) <;> rfl
  · rw [drop_zero]
    cases v.entries.findIdx? fun e => decide (e.tag = tag) <;> simp

theorem Indexed.parseFields (m : Bytes) (t n k prevTag : Nat) (prevValue : Int) :
    (parseFields m t n k prevTag prevValue v).2.Indexed := by
  induction n generalizing k prevTag prevValue v with
  | zero => exact h
  | succ n ih =>
    rw [FixView.parseFields]
    dsimp only
    split
    · exact h
    split
    · exact h
    split
    · exact h
    split
    · exact h
    split
    · exact h
    · split
      · exact h
      · exact ih (h.add _ _ _) _ _ _

theorem Indexed.parseBody (m : Bytes) (verifyChecksum : Bool) :
    (v.parseBody m verifyChecksum).2.Indexed := by
  have hfields := h.parseFields m v.trailerOff (v.trailerOff - v.bodyOff) v.bodyOff 0 (-1)
  unfold FixView.parseBody
  dsimp only
  split
  · exact h
  split
  · exact h
  split
  · exact hfields
  split
  · exact hfields
  rename_i e _
  split
  · exact hfields
  have hadd := Indexed.add (v := { (FixView.parseFields m v.trailerOff
    (v.trailerOff - v.bodyOff) v.bodyOff 0 (-1) v).2 with
      msgType := slice e.off.toNat e.len.toNat m }) hfields Tag.kCheckSum (v.trailerOff + 3) 3
  split <;> exact hadd

/-- Whatever is parsed, the table is right. -/
theorem Indexed.parse (m beginString : Bytes) (verifyChecksum : Bool) :
    (v.parse m beginString verifyChecksum).2.Indexed := by
  have hclear : Indexed { v.clearIndex with valid := false, msg := m, msgType := [] } :=
    h.clearIndex.indexed
  unfold FixView.parse
  dsimp only
  split
  · exact hclear
  split
  · exact hclear
  split
  · exact hclear
  split
  · exact hclear
  split
  · exact hclear
  have hbegin := hclear.add Tag.kBeginString 2
  split
  · exact hbegin _
  split
  · exact hbegin _
  · refine Indexed.parseBody ?_ m verifyChecksum
    exact (hbegin _).add Tag.kBodyLength _ _

end

/-- A view that has parsed these messages, each with what it was asked. -/
def after : FixView :=
  calls.foldl (fun v c => (v.parse c.1 c.2.1 c.2.2).2) {}

theorem indexed_after : (after calls).Indexed := by
  have hrun : ∀ (calls : List (Bytes × Bytes × Bool)) (v : FixView), v.Indexed →
      (calls.foldl (fun v c => (v.parse c.1 c.2.1 c.2.2).2) v).Indexed := by
    intro calls
    induction calls with
    | nil => exact fun v hv => hv
    | cons c calls ih => exact fun v hv => ih _ (hv.parse _ _ _)
  exact hrun calls {} (Cleared.indexed ⟨rfl, fun _ _ => rfl⟩)

end Indexed

/-! ## What parses -/

/-- A message that parses ends with a trailer that has its sum. -/
theorem parse_ok {v : FixView} {m beginString : Bytes}
    (h : (v.parse m beginString true).1 = .none) :
    ∃ t, t + 7 = m.length ∧ slice t 3 m = ascii "10=" ∧ m.getD (m.length - 1) 0 = kSoh ∧
      (slice (t + 3) 3 m).all isDigitByte = true ∧
      checksum (m.take t) = readDigits 0 (slice (t + 3) 3 m) := by
  have hbody : ∀ v : FixView, (v.parseBody m true).1 = .none → ∃ t, t + 7 = m.length ∧
      slice t 3 m = ascii "10=" ∧ m.getD (m.length - 1) 0 = kSoh ∧
      (slice (t + 3) 3 m).all isDigitByte = true ∧
      checksum (m.take t) = readDigits 0 (slice (t + 3) 3 m) := by
    intro v h
    unfold parseBody at h
    dsimp only at h
    split at h
    · exact absurd h nofun
    rename_i hends
    simp only [not_or, ne_eq, Decidable.not_not] at hends
    split at h
    · exact absurd h nofun
    rename_i hdigits
    split at h
    · rename_i herr
      exact absurd h herr
    split at h
    · exact absurd h nofun
    split at h
    · exact absurd h nofun
    split at h
    · exact absurd h nofun
    rename_i hsum
    simp only [not_and, true_implies, ne_eq, Decidable.not_not] at hsum
    exact ⟨v.trailerOff, hends.2.1, hends.2.2.2.1, hends.2.2.2.2,
      Bool.not_eq_false _ ▸ hdigits, hsum⟩
  unfold parse at h
  dsimp only at h
  split at h
  · exact absurd h nofun
  split at h
  · exact absurd h nofun
  split at h
  · exact absurd h nofun
  split at h
  · exact absurd h nofun
  split at h
  · exact absurd h nofun
  split at h
  · exact absurd h nofun
  · split at h
    · exact absurd h nofun
    · exact hbody _ h

/-- The seven bytes of a trailer. -/
theorem drop_trailer {m : Bytes} {t : Nat} (h : t + 7 = m.length) :
    m.drop t = slice t 3 m ++ (slice (t + 3) 3 m ++ [m.getD (m.length - 1) 0]) := by
  have hfirst : m.drop t = slice t 3 m ++ m.drop (t + 3) := by
    unfold slice
    rw [← drop_drop, take_append_drop]
  have hsecond : m.drop (t + 3) = slice (t + 3) 3 m ++ m.drop (t + 6) := by
    have hcut := (take_append_drop 3 (m.drop (t + 3))).symm
    rw [drop_drop] at hcut
    exact hcut
  have hlast : m.drop (t + 6) = [m.getD (m.length - 1) 0] := by
    have hlt : t + 6 < m.length := by omega
    rw [drop_eq_getElem_cons hlt, drop_eq_nil_of_le (by omega),
      getD_eq_getElem?_getD, show m.length - 1 = t + 6 by omega, getElem?_eq_getElem hlt]
    rfl
  rw [hfirst, hsecond, hlast]

/-- A byte that is another is told by the sum. -/
theorem checksum_ne {a b : Bytes} {c c' : UInt8} (hne : c ≠ c') :
    checksum (a ++ c :: b) ≠ checksum (a ++ c' :: b) := by
  unfold checksum
  intro h
  simp only [map_append, map_cons, sum_append, sum_cons] at h
  have hlt := c.toNat_lt
  have hlt' := c'.toNat_lt
  refine hne (UInt8.toNat_inj.mp ?_)
  omega

/-- No byte of a message that parses can be another. -/
theorem parse_set {v w : FixView} {m beginString other : Bytes}
    (h : (v.parse m beginString true).1 = .none) {i : Nat} {c x : UInt8} (hi : m[i]? = some x)
    (hne : c ≠ x) : (w.parse (m.set i c) other true).1 ≠ .none := by
  intro h'
  obtain ⟨t, ht, hten, hlast, hdigits, hsum⟩ := parse_ok h
  obtain ⟨t', ht', hten', hlast', hdigits', hsum'⟩ := parse_ok h'
  obtain ⟨hlt, hget⟩ := List.getElem?_eq_some_iff.mp hi
  rw [length_set] at ht'
  obtain rfl : t' = t := by omega
  by_cases hbefore : i < t'
  · -- the trailer is the same, and the sum is not
    have hsplit : m.take t' = m.take i ++ x :: (m.take t').drop (i + 1) := by
      have htake : i < (m.take t').length := by
        rw [length_take]
        omega
      have hcut := (take_append_drop i (m.take t')).symm
      rw [drop_eq_getElem_cons htake, take_take, Nat.min_eq_left hbefore.le,
        getElem_take, hget] at hcut
      exact hcut
    have hsplit' : (m.set i c).take t' = m.take i ++ c :: (m.take t').drop (i + 1) := by
      have hleft : (m.take i).length = i := by
        rw [length_take]
        omega
      rw [take_set, hsplit, set_append_right _ _ (by omega), hleft, Nat.sub_self,
        set_cons_zero, ← hsplit]
    have hslice : slice (t' + 3) 3 (m.set i c) = slice (t' + 3) 3 m := by
      refine slice_congr fun j hj _ => ?_
      rw [getElem?_set_ne (by omega)]
    rw [hslice, ← hsum, hsplit, hsplit'] at hsum'
    exact checksum_ne hne hsum'
  · -- the sum is the same, and so is the trailer
    have htake : (m.set i c).take t' = m.take t' := by
      rw [take_set, set_eq_of_length_le]
      rw [length_take]
      omega
    have hthree : ∀ l : Bytes, t' + 7 = l.length → (slice (t' + 3) 3 l).length = 3 :=
      fun l hl => length_slice (by omega)
    have hsame : slice (t' + 3) 3 (m.set i c) = slice (t' + 3) 3 m := by
      refine readDigits_inj (all_eq_true.mp hdigits') (all_eq_true.mp hdigits) ?_ ?_
      · rw [hthree m ht, hthree _ (by rw [length_set]; exact ht)]
      · rw [← hsum, ← hsum', htake]
    have hdrop : (m.set i c).drop t' = m.drop t' := by
      rw [drop_trailer (by rw [length_set]; exact ht), drop_trailer ht, hten, hten', hsame,
        hlast, hlast']
    have hall : m.set i c = m := by
      rw [← take_append_drop t' (m.set i c), htake, hdrop, take_append_drop]
    have hc := congrArg (·[i]?) hall
    rw [getElem?_set_self hlt, hi] at hc
    exact hne (Option.some.inj hc)

end FixView

end FastMM.Fix
