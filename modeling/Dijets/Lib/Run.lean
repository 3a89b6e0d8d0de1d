import Mathlib

/-!
# Runs of a deterministic machine with outputs

A machine here is a step function `σ → α → σ × β`: from a state and an input it
computes the next state and an output, the way a service that owns its state
answers one request at a time. This module names the runs of such a machine and
the states it can reach together with everything it has answered so far, and it
supplies the two induction rules that the safety proofs about a machine go
through.

The first rule is the ordinary one: a predicate that holds initially and is kept
by every step holds in every reachable state. The second is about answers
rather than states. A property of *pairs* of answers (no two answers of a run
contradict each other) is not an invariant of the state alone, since the state
forgets answers; it becomes one once the state is required to remember enough
of every answer it gave. `Reachable.pairwise` packages that argument once.

## Main definitions

* `run step s inputs` — the final state and the answers, in order.
* `Reachable init step s out` — some run from an initial state ends in `s`
  having answered `out`.
* `Reachable.invariant`, `Reachable.pairwise` — the two induction rules.
* `run_trace_invariant` — the rule for a relation between a run's inputs and its answers.
-/

namespace Dijets.Lib

universe u v w
variable {σ : Type u} {α : Type v} {β : Type w}

/-- Execute `inputs` from `s`, returning the final state and the answers in order. -/
def run (step : σ → α → σ × β) : σ → List α → σ × List β
  | s, [] => (s, [])
  | s, a :: as =>
    let first := step s a
    let rest := run step first.1 as
    (rest.1, first.2 :: rest.2)

@[simp] theorem run_nil (step : σ → α → σ × β) (s : σ) : run step s [] = (s, []) := rfl

@[simp] theorem run_cons (step : σ → α → σ × β) (s : σ) (a : α) (as : List α) :
    run step s (a :: as) =
      ((run step (step s a).1 as).1, (step s a).2 :: (run step (step s a).1 as).2) := rfl

/-- A run of two lists of inputs is the run of the first followed by the run of the second. -/
theorem run_append (step : σ → α → σ × β) (s : σ) (as bs : List α) :
    run step s (as ++ bs) =
      ((run step (run step s as).1 bs).1, (run step s as).2 ++ (run step (run step s as).1 bs).2) := by
  induction as generalizing s with
  | nil => rfl
  | cons a as ih => simp [ih]

/-- `Reachable init step s out`: a run from a state satisfying `init` ends in `s`
after answering `out`, oldest answer first. -/
inductive Reachable (init : σ → Prop) (step : σ → α → σ × β) : σ → List β → Prop
  | init {s : σ} : init s → Reachable init step s []
  | step {s : σ} {out : List β} (a : α) :
      Reachable init step s out → Reachable init step (step s a).1 (out ++ [(step s a).2])

variable {init : σ → Prop} {step : σ → α → σ × β}

/-- Every finite run from an initial state is described by `Reachable`. -/
theorem reachable_run_of_reachable {s : σ} {out : List β} (h : Reachable init step s out)
    (as : List α) :
    Reachable init step (run step s as).1 (out ++ (run step s as).2) := by
  induction as generalizing s out with
  | nil => simpa using h
  | cons a as ih =>
    have h' := ih (Reachable.step a h)
    simpa [List.append_assoc] using h'

theorem reachable_run {s : σ} (hs : init s) (as : List α) :
    Reachable init step (run step s as).1 (run step s as).2 := by
  simpa using reachable_run_of_reachable (Reachable.init hs) as

/-- **Invariant rule.** A state predicate that holds initially and is kept by
every step holds in every reachable state. -/
theorem Reachable.invariant (I : σ → Prop) (h0 : ∀ s, init s → I s)
    (hstep : ∀ s a, I s → I (step s a).1) {s : σ} {out : List β}
    (h : Reachable init step s out) : I s := by
  induction h with
  | init hs => exact h0 _ hs
  | step a _ ih => exact hstep _ a ih

/-- **Log rule.** A relation between the state and the answers so far that holds
initially and is kept by every step holds at the end of every run. -/
theorem Reachable.log_invariant (J : σ → List β → Prop) (h0 : ∀ s, init s → J s [])
    (hstep : ∀ s out a, J s out → J (step s a).1 (out ++ [(step s a).2]))
    {s : σ} {out : List β} (h : Reachable init step s out) : J s out := by
  induction h with
  | init hs => exact h0 _ hs
  | step a _ ih => exact hstep _ _ a ih

/-- **Trace rule.** A relation between the state, the inputs taken and the answers given that
is kept by every step holds at the end of every run that starts where it holds. -/
theorem run_trace_invariant (J : σ → List α → List β → Prop)
    (hstep : ∀ s ins outs a, J s ins outs → J (step s a).1 (ins ++ [a]) (outs ++ [(step s a).2]))
    {s : σ} {ins : List α} {outs : List β} (h : J s ins outs) (as : List α) :
    J (run step s as).1 (ins ++ as) (outs ++ (run step s as).2) := by
  induction as generalizing s ins outs with
  | nil => simpa using h
  | cons a as ih =>
    have h' := ih (hstep s ins outs a h)
    simpa [List.append_assoc] using h'

/-- A run from states satisfying `init` is a run from states satisfying anything
weaker. -/
theorem Reachable.mono {init' : σ → Prop} (hinit : ∀ s, init s → init' s) {s : σ} {out : List β}
    (h : Reachable init step s out) : Reachable init' step s out := by
  induction h with
  | init hs => exact Reachable.init (hinit _ hs)
  | step a _ ih => exact Reachable.step a ih

/-- **Answer rule.** If every answer given from a state of an invariant `I` has the
property `P`, every answer of a run has it. -/
theorem Reachable.forall_mem (I : σ → Prop) (P : β → Prop) (h0 : ∀ s, init s → I s)
    (hstep : ∀ s a, I s → I (step s a).1) (hout : ∀ s a, I s → P (step s a).2) {s : σ}
    {out : List β} (h : Reachable init step s out) : ∀ b ∈ out, P b := by
  induction h with
  | init _ => simp
  | @step s out a hr ih =>
    have hs := hr.invariant I h0 hstep
    intro b hb
    rcases List.mem_append.mp hb with hb | hb
    · exact ih b hb
    · rw [List.mem_singleton.mp hb]
      exact hout s a hs

/-- **Pairwise rule.** Let the state keep an invariant `I` and remember every
answer through `C`: an answer, once given, stays compatible with the state, and
each new answer is compatible with the state it leaves. If every new answer is
`R`-related, both ways, to each answer the pre-state is compatible with, and to
itself, then any two answers of a run are `R`-related. -/
theorem Reachable.pairwise (I : σ → Prop) (C : σ → β → Prop) (R : β → β → Prop)
    (h0 : ∀ s, init s → I s)
    (hstep : ∀ s a, I s → I (step s a).1)
    (hkeep : ∀ s a b, I s → C s b → C (step s a).1 b)
    (hnew : ∀ s a, I s → C (step s a).1 (step s a).2)
    (hself : ∀ s a, I s → R (step s a).2 (step s a).2)
    (hold : ∀ s a b, I s → C s b → R b (step s a).2 ∧ R (step s a).2 b)
    {s : σ} {out : List β} (h : Reachable init step s out) :
    I s ∧ (∀ b ∈ out, C s b) ∧ ∀ b ∈ out, ∀ c ∈ out, R b c := by
  induction h with
  | init hs => exact ⟨h0 _ hs, by simp, by simp⟩
  | @step s out a _ ih =>
    obtain ⟨hI, hC, hR⟩ := ih
    refine ⟨hstep s a hI, ?_, ?_⟩
    · intro b hb
      rcases List.mem_append.mp hb with hb | hb
      · exact hkeep s a b hI (hC b hb)
      · rw [List.mem_singleton.mp hb]
        exact hnew s a hI
    · intro b hb c hc
      rcases List.mem_append.mp hb with hb | hb <;> rcases List.mem_append.mp hc with hc | hc
      · exact hR b hb c hc
      · rw [List.mem_singleton.mp hc]
        exact (hold s a b hI (hC b hb)).1
      · rw [List.mem_singleton.mp hb]
        exact (hold s a c hI (hC c hc)).2
      · rw [List.mem_singleton.mp hb, List.mem_singleton.mp hc]
        exact hself s a hI

end Dijets.Lib
