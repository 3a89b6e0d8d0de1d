import Mathlib

/-!
# A counter of pops and pushes

A checker that walks a sequence of steps, each taking `pops` off a counter and then adding
`pushes`, and fails when the counter holds fewer than `pops`, computes `run` with unbounded
integers. In a machine word of `m` values the additions wrap (`runMod`). The two agree as long
as no value the unbounded counter takes reaches `m` (`runMod_eq_run`); past that, the word can
come back to any value, `0` included.
-/

namespace Dijets.Lib.Counter

/-- The counter with unbounded integers: its last value, or `none` once a step takes off more
than it holds. -/
def run : List (ℕ × ℕ) → ℕ → Option ℕ
  | [], c => some c
  | (pops, pushes) :: steps, c => if c < pops then none else run steps (c - pops + pushes)

/-- The counter in a word of `m` values, the additions wrapping. -/
def runMod (m : ℕ) : List (ℕ × ℕ) → ℕ → Option ℕ
  | [], c => some c
  | (pops, pushes) :: steps, c =>
    if c < pops then none else runMod m steps ((c - pops + pushes) % m)

/-- Every value the unbounded counter takes from `c`, before it stops, is below `m`. -/
def Below (m : ℕ) : List (ℕ × ℕ) → ℕ → Prop
  | [], c => c < m
  | (pops, pushes) :: steps, c => c < m ∧ (pops ≤ c → Below m steps (c - pops + pushes))

theorem Below.lt {m c : ℕ} : ∀ {steps : List (ℕ × ℕ)}, Below m steps c → c < m
  | [], h => h
  | _ :: _, h => h.1

/-- **The word counts exactly while it does not overflow.** -/
theorem runMod_eq_run {m : ℕ} : ∀ {steps : List (ℕ × ℕ)} {c : ℕ}, Below m steps c →
    runMod m steps c = run steps c
  | [], _, _ => rfl
  | (pops, pushes) :: steps, c, ⟨_, hrest⟩ => by
    simp only [run, runMod]
    by_cases hlt : c < pops
    · rw [if_pos hlt, if_pos hlt]
    · rw [if_neg hlt, if_neg hlt]
      have hb := hrest (Nat.le_of_not_lt hlt)
      rw [Nat.mod_eq_of_lt hb.lt, runMod_eq_run hb]

end Dijets.Lib.Counter
