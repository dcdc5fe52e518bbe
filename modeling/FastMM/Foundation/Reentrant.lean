/-
  Foundation/Reentrant.lean --- an object whose operations call out and may be called back.

  An operation runs to its next call out; what it does afterwards depends on the answer and on
  the state it finds then, for while the call is out any operation may be called, to any depth.
  A property that every operation keeps, stretch by stretch, whatever state of that property it
  comes back to, holds of every run.
-/
import Mathlib.Data.List.Induction
set_option autoImplicit false

namespace FastMM.Foundation

/-- What an operation does: it ends in a state, or calls out in one and goes on from the state it
finds and the answer.  `ω` is what a stretch reads of its surroundings. -/
inductive Prog (ω σ η : Type) where
  | done (s : σ)
  | call (hook : η) (s : σ) (next : ω → σ → Bool → Prog ω σ η)

namespace Prog

variable {ω σ η : Type}

/-- One operation after the other, in one stretch unless the first called out. -/
def andThen (w : ω) (f : ω → σ → Prog ω σ η) : Prog ω σ η → Prog ω σ η
  | .done s => f w s
  | .call h s k => .call h s fun w s b => (k w s b).andThen w f

/-- Every stretch ends in `P`, begun in any state of `P`. -/
def Keeps (P : σ → Prop) : Prog ω σ η → Prop
  | .done s => P s
  | .call _ s k => P s ∧ ∀ w s b, P s → (k w s b).Keeps P

theorem Keeps.andThen {P : σ → Prop} {f : ω → σ → Prog ω σ η} (hf : ∀ w s, P s → (f w s).Keeps P)
    {p : Prog ω σ η} (w : ω) (hp : p.Keeps P) : (p.andThen w f).Keeps P := by
  induction p generalizing w with
  | done s => exact hf w s hp
  | call h s k ih => exact ⟨hp.1, fun w s b hs => ih w s b w (hp.2 w s b hs)⟩

end Prog

/-- The state, and the operations that wait for the answer to a call out, the innermost first. -/
structure Reentrant (ω σ η : Type) where
  state : σ
  frames : List (η × (ω → σ → Bool → Prog ω σ η)) := []

/-- An operation is called, or the innermost call out is answered. -/
inductive Input (κ ω : Type) where
  | call (c : κ) (w : ω)
  | ret (b : Bool) (w : ω)

namespace Reentrant

variable {ω σ η κ : Type}

/-- Runs an operation to its end or its next call out. -/
def enter (frames : List (η × (ω → σ → Bool → Prog ω σ η))) : Prog ω σ η → Reentrant ω σ η
  | .done s => ⟨s, frames⟩
  | .call h s k => ⟨s, (h, k) :: frames⟩

/-- One input; an answer nobody waits for is none. -/
def step (ops : κ → ω → σ → Prog ω σ η) (m : Reentrant ω σ η) : Input κ ω → Reentrant ω σ η
  | .call c w => enter m.frames (ops c w m.state)
  | .ret b w =>
    match m.frames with
    | [] => m
    | (_, k) :: rest => enter rest (k w m.state b)

def run (ops : κ → ω → σ → Prog ω σ η) (m : Reentrant ω σ η) (inputs : List (Input κ ω)) :
    Reentrant ω σ η :=
  inputs.foldl (step ops) m

/-- The state and every waiting operation keep `P`. -/
def Holds (P : σ → Prop) (m : Reentrant ω σ η) : Prop :=
  P m.state ∧ ∀ f ∈ m.frames, ∀ w s b, P s → (f.2 w s b).Keeps P

variable {P : σ → Prop} {ops : κ → ω → σ → Prog ω σ η} {m : Reentrant ω σ η}

theorem holds_enter {frames : List (η × (ω → σ → Bool → Prog ω σ η))} {p : Prog ω σ η}
    (hp : p.Keeps P) (hframes : ∀ f ∈ frames, ∀ w s b, P s → (f.2 w s b).Keeps P) :
    (enter frames p).Holds P := by
  cases p with
  | done s => exact ⟨hp, hframes⟩
  | call h s k =>
    refine ⟨hp.1, fun f hf => ?_⟩
    rcases List.mem_cons.mp hf with rfl | hmem
    · exact hp.2
    · exact hframes f hmem

/-- An operation that keeps `P` from this state, or an answer. -/
theorem Holds.step (h : m.Holds P) {i : Input κ ω}
    (hops : ∀ c w, i = .call c w → (ops c w m.state).Keeps P) : (m.step ops i).Holds P := by
  obtain ⟨s, frames⟩ := m
  cases i with
  | call c w => exact holds_enter (hops c w rfl) h.2
  | ret b w =>
    cases frames with
    | nil => exact h
    | cons f rest =>
      refine holds_enter (h.2 f (List.mem_cons_self ..) w s b h.1) fun g hg => ?_
      exact h.2 g (List.mem_cons_of_mem f hg)

/-- A run whose every call keeps `P` from the state it comes to. -/
theorem Holds.run (h : m.Holds P) {inputs : List (Input κ ω)}
    (hops : ∀ pre c w rest, inputs = pre ++ .call c w :: rest → P (m.run ops pre).state →
      (ops c w (m.run ops pre).state).Keeps P) : (m.run ops inputs).Holds P := by
  induction inputs using List.reverseRecOn with
  | nil => exact h
  | append_singleton pre i ih =>
    have hpre : (m.run ops pre).Holds P := by
      refine ih fun pre' c w rest heq => hops pre' c w (rest ++ [i]) ?_
      rw [heq, List.append_assoc, List.cons_append]
    have hrun : m.run ops (pre ++ [i]) = (m.run ops pre).step ops i := by
      unfold Reentrant.run
      rw [List.foldl_append]
      rfl
    rw [hrun]
    exact hpre.step fun c w hi => hops pre c w [] (by rw [hi]) hpre.1

end Reentrant

end FastMM.Foundation
