import Mathlib

/-!
# Loops run with fuel

A `loop` whose body either goes round again from a new state or leaves with a
value is `Loop.iterate body fuel s`: at most `fuel` passes of `body` from `s`, and
`none` only when the fuel runs out before the loop leaves. A value once reached
stays the value under more fuel (`iterate_mono`), so the fuel is a resource bound
and nothing else.

Two rules say what such a loop does. The invariant rule turns a predicate that
every pass going round keeps, and every pass leaving turns into `Q`, into `Q` of
the value (`iterate_induction`). The measure rule bounds the passes: if every
pass going round lowers a measure, measure + 1 passes are enough
(`isSome_iterate_of_measure`). Its usual instance is a loop that walks down the
entries of a finite table, each to one of strictly smaller rank, or off the
table: one pass per entry and one more are enough (`isSome_iterate_of_rank`).

## Main definitions

* `Loop.Step` — what one pass of a body does.
* `Loop.iterate` — the loop, with fuel.
-/

set_option autoImplicit false

namespace Dijets.Lib.Loop

universe u v w

/-- What one pass of a loop's body does: go round again from a new state, or leave
with a value. -/
inductive Step (σ : Type u) (β : Type v) where
  | next (s : σ)
  | done (b : β)
deriving DecidableEq, Repr

variable {σ : Type u} {β : Type v} (body : σ → Step σ β)

/-- At most `fuel` passes of `body` from `s`; `none` when the fuel runs out first. -/
def iterate : ℕ → σ → Option β
  | 0, _ => none
  | n + 1, s =>
    match body s with
    | .next s' => iterate n s'
    | .done b => some b

variable {body} {n : ℕ} {s s' : σ} {b : β}

@[simp] theorem iterate_zero (s : σ) : iterate body 0 s = none := rfl

theorem iterate_succ_of_next (h : body s = .next s') :
    iterate body (n + 1) s = iterate body n s' := by
  simp [iterate, h]

theorem iterate_succ_of_done (h : body s = .done b) : iterate body (n + 1) s = some b := by
  simp [iterate, h]

/-- More fuel does not change a value once the loop has left. -/
theorem iterate_mono (h : iterate body n s = some b) {m : ℕ} (hnm : n ≤ m) :
    iterate body m s = some b := by
  induction n generalizing s m with
  | zero => cases h
  | succ n ih =>
    obtain ⟨m, rfl⟩ : ∃ m', m = m' + 1 := ⟨m - 1, by omega⟩
    cases hb : body s with
    | next s' =>
      rw [iterate_succ_of_next hb] at h ⊢
      exact ih h (by omega)
    | done b' =>
      rw [iterate_succ_of_done hb] at h ⊢
      exact h

/-- A loop that has left has one value, whatever the fuel. -/
theorem iterate_unique {m : ℕ} {b' : β} (h : iterate body n s = some b)
    (h' : iterate body m s = some b') : b = b' := by
  have h₁ := iterate_mono h (Nat.le_max_left n m)
  rw [iterate_mono h' (Nat.le_max_right n m), Option.some.injEq] at h₁
  exact h₁.symm

/-- **Invariant rule.** A predicate kept by every pass that goes round, and turned into
`Q` by every pass that leaves, gives `Q` of the value. -/
theorem iterate_induction (I : σ → Prop) (Q : β → Prop)
    (hcont : ∀ s s', I s → body s = .next s' → I s')
    (hdone : ∀ s b, I s → body s = .done b → Q b) :
    ∀ n s, I s → iterate body n s = some b → Q b := by
  intro n
  induction n with
  | zero => intro s _ h; cases h
  | succ n ih =>
    intro s hs h
    cases hb : body s with
    | next s' =>
      rw [iterate_succ_of_next hb] at h
      exact ih s' (hcont s s' hs hb) h
    | done b' =>
      rw [iterate_succ_of_done hb, Option.some.injEq] at h
      subst h
      exact hdone s b' hs hb

/-- **Measure rule.** If every pass that goes round lowers `μ`, then `μ s + 1` passes
from `s` are enough for the loop to leave. -/
theorem isSome_iterate_of_measure (μ : σ → ℕ)
    (hdec : ∀ s s', body s = .next s' → μ s' < μ s) :
    ∀ n s, μ s < n → (iterate body n s).isSome := by
  intro n
  induction n with
  | zero => intro s h; omega
  | succ n ih =>
    intro s hs
    cases hb : body s with
    | next s' =>
      rw [iterate_succ_of_next hb]
      exact ih s' (by have := hdec s s' hb; omega)
    | done b' =>
      rw [iterate_succ_of_done hb]
      rfl

/-! ## Walking down a table by rank -/

section Rank

variable {α : Type w}

/-- A count drops strictly when the predicate is narrowed and one entry is lost. -/
theorem countP_lt_countP {l : List α} {p q : α → Bool} (hpq : ∀ x ∈ l, p x → q x) {a : α}
    (ha : a ∈ l) (hqa : q a) (hpa : ¬ p a) : l.countP p < l.countP q := by
  induction l with
  | nil => cases ha
  | cons x l ih =>
    rw [List.countP_cons, List.countP_cons]
    rcases List.mem_cons.mp ha with rfl | ha
    · -- the lost entry is the head
      have hle := List.countP_mono_left fun y hy => hpq y (List.mem_cons_of_mem _ hy)
      simp only [Bool.not_eq_true] at hpa
      simp only [hqa, hpa, if_true, Bool.false_eq_true, if_false]
      omega
    · have hlt := ih (fun y hy => hpq y (List.mem_cons_of_mem _ hy)) ha
      have hx := hpq x List.mem_cons_self
      by_cases hp : p x = true
      · simp [hp, hx hp]
        omega
      · simp only [hp, Bool.false_eq_true, if_false]
        split_ifs <;> omega

/-- **A walk down a table by rank leaves.** Let `cur s` be the entry of `table` a state
stands at, if any. If every pass that goes round stands at an entry and goes to a
state whose entry, if any, has a strictly smaller rank, then one pass per entry and
one more are enough. -/
theorem isSome_iterate_of_rank (table : List α) (cur : σ → Option α) (rank : α → ℕ)
    (hcur : ∀ s a, cur s = some a → a ∈ table)
    (hdec : ∀ s s', body s = .next s' →
      ∃ a, cur s = some a ∧ ∀ a', cur s' = some a' → rank a' < rank a)
    (s : σ) : (iterate body (table.length + 1) s).isSome := by
  -- the measure: how many entries rank at or below the current one
  let μ : σ → ℕ := fun s =>
    match cur s with
    | some a => table.countP fun e => decide (rank e ≤ rank a)
    | none => 0
  have hμ : ∀ s, μ s ≤ table.length := by
    intro s
    simp only [μ]
    split
    · exact List.countP_le_length
    · exact Nat.zero_le _
  refine isSome_iterate_of_measure μ ?_ _ s (Nat.lt_succ_of_le (hμ s))
  intro s s' hb
  obtain ⟨a, ha, hlt⟩ := hdec s s' hb
  have hmem := hcur s a ha
  have hμs : μ s = table.countP fun e => decide (rank e ≤ rank a) := by simp only [μ, ha]
  rw [hμs]
  cases ha' : cur s' with
  | none =>
    have hμs' : μ s' = 0 := by simp only [μ, ha']
    rw [hμs']
    exact List.countP_pos_iff.mpr ⟨a, hmem, by simp⟩
  | some a' =>
    have hμs' : μ s' = table.countP fun e => decide (rank e ≤ rank a') := by simp only [μ, ha']
    rw [hμs']
    have hr := hlt a' ha'
    exact countP_lt_countP (fun e _ he => by simp at he ⊢; omega) hmem (by simp) (by simp; omega)

end Rank

end Dijets.Lib.Loop
