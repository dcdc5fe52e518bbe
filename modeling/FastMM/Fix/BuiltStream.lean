/-
  Fix/BuiltStream.lean --- what a builder wrote comes out of a framer and a view.

  Source: `include/fastmm/codecs/fix/fix_builder.hpp`, `src/codecs/fix/fix_framer.cpp`,
  `src/codecs/fix/fix_view.cpp`.
-/
import FastMM.Fix.FramedStream
set_option autoImplicit false

namespace FastMM.Fix

open Foundation List

/-! ## Built messages on a stream -/

/-- A message as a builder is asked for it, its type in front of its fields. -/
structure Outgoing where
  beginString : Bytes
  msgType : Bytes
  fields : List (Nat × Bytes)

def Outgoing.body (m : Outgoing) : Bytes := fieldsBytes ((Tag.kMsgType, m.msgType) :: m.fields)

/-- What the builder wrote of it. -/
def Outgoing.written (b : FixBuilder) (m : Outgoing) : Bytes :=
  (b.write m.beginString m.msgType m.fields).2.buf.take
    (b.write m.beginString m.msgType m.fields).1

/-- A message that the builder has room for, and a framer and a view. -/
structure Outgoing.Fits (f : FixFramer) (b : FixBuilder) (m : Outgoing) : Prop where
  begins : ascii "FIX" <+: m.beginString
  soh : kSoh ∉ m.beginString
  short : m.beginString.length ≤ 29
  ok : ∀ g ∈ (Tag.kMsgType, m.msgType) :: m.fields, FieldOk g
  data : NoData (m.fields.map Prod.fst)
  room : m.fields.length + 5 ≤ FixView.kMaxFields
  long : m.body.length ≤ 9999999
  written : 0 < (b.write m.beginString m.msgType m.fields).1
  size : (m.written b).length ≤ f.maxMessage

variable {f : FixFramer} {b : FixBuilder} {m : Outgoing}

theorem Outgoing.Fits.written_eq (h : m.Fits f b) : m.written b = wire m.beginString m.body :=
  write_eq b m.beginString m.msgType m.fields h.written

/-- The framer takes what the builder wrote. -/
theorem Outgoing.Fits.framed (h : m.Fits f b) : Framed f.maxMessage (m.written b) := by
  have hlast := FixView.fieldsBytes_last (Tag.kMsgType, m.msgType) m.fields
  have hsize := h.size
  rw [h.written_eq] at hsize ⊢
  refine ⟨⟨ascii "8=" ++ m.beginString, decimalBytes m.body.length, m.body,
    writeDigits 3 (FixBuilder.checksum (prefixBytes m.beginString m.body.length ++ m.body)),
    ?_, ?_, ?_, ?_, fun c hc => isDigit_decimalBytes hc, ?_, ?_, readDigits_decimalBytes _, hlast,
    fun c hc => isDigit_writeDigits hc, length_writeDigits _ _⟩, hsize⟩
  · unfold wire prefixBytes FixBuilder.trailer
    simp only [append_assoc, cons_append, nil_append]
  · exact (prefix_append_right_inj (ascii "8=")).mpr h.begins
  · rw [mem_append, not_or]
    exact ⟨by decide, h.soh⟩
  · rw [length_append]
    exact Nat.lt_of_le_of_lt (Nat.add_le_add_left h.short 2) (by decide)
  · rw [length_decimalBytes]
    exact countDigits_pos _
  · rw [length_decimalBytes]
    exact countDigits_le (by decide) (Nat.lt_succ_of_le h.long)

/-- However the bytes of built messages are cut on their way, the framer returns those messages, and
any view reads the fields that each was built of. -/
theorem built_messages_arrive (msgs : List Outgoing) (hfits : ∀ m ∈ msgs, m.Fits f b)
    (chunks : List Bytes) (hstream : chunks.flatten = (msgs.map (Outgoing.written b)).flatten) :
    (FixFramer.messages (f.feed chunks).got).map Prod.snd = msgs.map (Outgoing.written b) ∧
    ∀ m ∈ msgs, ∀ v : FixView,
      (v.parse (m.written b) m.beginString true).1 = .none ∧
        (v.parse (m.written b) m.beginString true).2.msgType = m.msgType ∧
        (v.parse (m.written b) m.beginString true).2.fields =
          FixView.wireFields m.beginString m.msgType m.fields := by
  refine ⟨?_, fun m hm v => ?_⟩
  · rw [(FixFramer.hasRead_feed f chunks).messages_eq, hstream]
    exact walk_flatten f.judge_steady (List.forall_mem_map.mpr fun m hm =>
      FixFramer.judge_framed (hfits m hm).framed) 0
  have h := hfits m hm
  have hsmall : (wire m.beginString m.body).length < 2 ^ 32 := by
    have hdigits : countDigits m.body.length ≤ 7 :=
      countDigits_le (by decide) (Nat.lt_succ_of_le h.long)
    have hshort := h.short
    have hlong := h.long
    rw [length_wire]
    omega
  have hne : m.beginString ≠ [] := fun hnil => by
    have := h.begins
    rw [hnil] at this
    exact absurd this (by decide)
  obtain ⟨hnone, -, htype, hfields⟩ := FixView.parse_wire (v := v) true hne h.soh (.inr rfl) h.ok
    h.data h.room h.long hsmall
  rw [h.written_eq]
  exact ⟨hnone, htype, hfields⟩

/-- Two heartbeats, cut in the first, across their border and in the second. -/
theorem built_messages_arrive_two :
    let m : Outgoing := ⟨kBeginString44, MsgType.kHeartbeat, [(Tag.kText, ascii "x")]⟩
    let m' : Outgoing := ⟨kBeginString44, MsgType.kHeartbeat, [(Tag.kText, ascii "yz")]⟩
    let w := m.written { cap := 64 }
    let w' := m'.written { cap := 64 }
    (FixFramer.messages (FixFramer.feed {} [w.take 9, w.drop 9 ++ w'.take 4, w'.drop 4]).got).map
        Prod.snd = [w, w'] ∧
      (FixView.parse {} w' m'.beginString true).2.fields =
        FixView.wireFields m'.beginString m'.msgType m'.fields := by
  intro m m' w w'
  have hfield : ∀ t, t ≠ [] → kSoh ∉ t →
      ∀ g ∈ (Tag.kMsgType, MsgType.kHeartbeat) :: [(Tag.kText, t)], FieldOk g := by
    intro t hne hsoh g hg
    rcases mem_pair.mp hg with rfl | rfl
    · exact ⟨show 1 ≤ 35 by decide, show 35 ≤ 999999999 by decide, by decide, by decide⟩
    · exact ⟨show 1 ≤ 58 by decide, show 58 ≤ 999999999 by decide, hne, hsoh⟩
  have hfits : ∀ n ∈ [m, m'], n.Fits {} { cap := 64 } := by
    intro n hn
    rcases mem_pair.mp hn with rfl | rfl
    · exact ⟨by decide, by decide, by decide, hfield _ (by decide) (by decide), .singleton _,
        by decide, by decide, by decide, by decide⟩
    · exact ⟨by decide, by decide, by decide, hfield _ (by decide) (by decide), .singleton _,
        by decide, by decide, by decide, by decide⟩
  obtain ⟨hgot, hread⟩ := built_messages_arrive [m, m'] hfits
    [w.take 9, w.drop 9 ++ w'.take 4, w'.drop 4] (by decide)
  exact ⟨hgot, (hread m' (mem_cons_of_mem m mem_cons_self) {}).2.2⟩

end FastMM.Fix
