import Mathlib

/-!
# Triples for `EStateM` programs

A method of a Rust object that takes `&mut self` and returns a `Result` is a
program in `EStateM ε σ`: it ends with a value or with an error, and in both
cases in some state. `Std.Do` states what such a program does as a triple
`⦃P⦄ prog ⦃post⟨Q, E⟩⦄`, with one postcondition for each ending, and `mvcgen`
reduces a triple about a composite program to conditions on its parts.

This module connects the two views. `triple_iff` reads a triple whose
assertions are plain propositions as a statement about `EStateM.run`, so that
the primitives of a model, written directly as state functions, can be given
their triples by unfolding, and so that a triple proved by `mvcgen` can be used
about the state and the outcome a program actually produces.
-/

namespace Dijets.Lib

open Std.Do

universe u
variable {ε σ α : Type u}

/-- The weakest precondition of an `EStateM` program is its postcondition at
the outcome of the run. -/
theorem wp_apply (x : EStateM ε σ α) (Q : PostCond α (.except ε (.arg σ .pure))) (s : σ) :
    wp⟦x⟧ Q s = match x.run s with
      | .ok a s' => Q.1 a s'
      | .error e s' => Q.2.1 e s' := by
  simp only [WP.wp, PredTrans.apply]
  cases x.run s <;> rfl

/-- A triple with propositional assertions says what every run from a state
meeting the precondition ends with. -/
theorem triple_iff (x : EStateM ε σ α) (P : σ → Prop) (Q : α → σ → Prop) (E : ε → σ → Prop) :
    ⦃fun s => ⌜P s⌝⦄ x ⦃post⟨fun a s => ⌜Q a s⌝, fun e s => ⌜E e s⌝⟩⦄ ↔
      ∀ s, P s → match x.run s with
        | .ok a s' => Q a s'
        | .error e s' => E e s' := by
  constructor
  · intro h s hs
    have hwp := h s hs
    rw [wp_apply] at hwp
    split <;> simp_all
  · intro h s hs
    rw [wp_apply]
    have hrun := h s hs
    split <;> simp_all

/-- The outcome of one run, read off a triple. -/
theorem run_of_triple {x : EStateM ε σ α} {P : σ → Prop} {Q : α → σ → Prop} {E : ε → σ → Prop}
    (h : ⦃fun s => ⌜P s⌝⦄ x ⦃post⟨fun a s => ⌜Q a s⌝, fun e s => ⌜E e s⌝⟩⦄) {s : σ}
    (hs : P s) :
    match x.run s with
    | .ok a s' => Q a s'
    | .error e s' => E e s' :=
  (triple_iff x P Q E).mp h s hs

end Dijets.Lib
