import Dijets.Lib.Loop

/-!
# Binary search of a slice

`slice::binary_search_by` as Rust 1.54 writes it. The part `[left, right)` still to be
searched is halved at `mid = left + size / 2`, where `size = right - left`, until the
comparator answers `Equal` at `mid`, which is then `Ok(mid)`, or the part is empty, and
the answer is `Err(left)`. The loop is `Loop.iterate`, with one pass per entry and one
more, which is enough: each pass narrows the part (`isSome_binarySearchBy`).

A comparator that never answers `Equal`, and answers `Less` on a prefix of the slice and
`Greater` after it, leads to `Err` of the prefix's length, the partition point
(`binarySearchBy_eq_error`). The invariant: everything left of `left` is `Less`, and
nothing from `right` on is.
-/

set_option autoImplicit false

namespace Dijets.Lib.BinarySearch

universe u

variable {α : Type u} [Inhabited α] (xs : List α) (f : α → Ordering)

/-- One pass of the loop over `[left, right)`. -/
def searchStep : ℕ × ℕ → Loop.Step (ℕ × ℕ) (Except ℕ ℕ)
  | (left, right) =>
    if left < right then
      let size := right - left
      let mid := left + size / 2
      match f xs[mid]! with
      | .lt => .next (mid + 1, right)
      | .gt => .next (left, mid)
      | .eq => .done (.ok mid)
    else .done (.error left)

/-- `binary_search_by`; `.ok` is `Ok` and `.error` is `Err`. -/
def binarySearchBy : Option (Except ℕ ℕ) :=
  Loop.iterate (searchStep xs f) (xs.length + 1) (0, xs.length)

variable {xs f}

theorem searchStep_next {left right : ℕ} {s' : ℕ × ℕ}
    (h : searchStep xs f (left, right) = .next s') :
    left < right ∧ ((f xs[left + (right - left) / 2]! = .lt ∧ s' = (left + (right - left) / 2 + 1, right)) ∨
      (f xs[left + (right - left) / 2]! = .gt ∧ s' = (left, left + (right - left) / 2))) := by
  simp only [searchStep] at h
  split at h
  · rename_i hlt
    refine ⟨hlt, ?_⟩
    split at h
    · rename_i hf
      exact Or.inl ⟨hf, by cases h; rfl⟩
    · rename_i hf
      exact Or.inr ⟨hf, by cases h; rfl⟩
    · cases h
  · cases h

theorem searchStep_done {left right : ℕ} {b : Except ℕ ℕ}
    (h : searchStep xs f (left, right) = .done b) :
    (right ≤ left ∧ b = .error left) ∨
      (left < right ∧ f xs[left + (right - left) / 2]! = .eq ∧ b = .ok (left + (right - left) / 2)) := by
  simp only [searchStep] at h
  split at h
  · rename_i hlt
    split at h
    · cases h
    · cases h
    · rename_i hf
      exact Or.inr ⟨hlt, hf, by cases h; rfl⟩
  · rename_i hle
    exact Or.inl ⟨by omega, by cases h; rfl⟩

/-- Each pass narrows the part still searched, so the loop leaves. -/
theorem isSome_binarySearchBy (xs : List α) (f : α → Ordering) :
    (binarySearchBy xs f).isSome := by
  refine Loop.isSome_iterate_of_measure (fun s => s.2 - s.1) ?_ _ _ (by simp)
  rintro ⟨left, right⟩ s' h
  obtain ⟨hlt, ⟨-, rfl⟩ | ⟨-, rfl⟩⟩ := searchStep_next h
  · show right - (left + (right - left) / 2 + 1) < right - left
    omega
  · show left + (right - left) / 2 - left < right - left
    omega

/-- **A partitioned slice.** With a comparator that never answers `Equal` and whose
`Less` answers form a prefix, the search answers `Err` of the prefix's length. -/
theorem binarySearchBy_eq_error (hne : ∀ x ∈ xs, f x ≠ .eq)
    (hmono : ∀ i j (hij : i < j) (hj : j < xs.length), f xs[j] = .lt → f xs[i] = .lt) :
    ∃ p ≤ xs.length, binarySearchBy xs f = some (.error p) ∧
      ∀ j (hj : j < xs.length), f xs[j] = .lt ↔ j < p := by
  -- what lies left of `left` is `Less`, and nothing from `right` on is
  let I : ℕ × ℕ → Prop := fun s => s.1 ≤ s.2 ∧ s.2 ≤ xs.length ∧
    (∀ j (hj : j < xs.length), j < s.1 → f xs[j] = .lt) ∧
    (∀ j (hj : j < xs.length), s.2 ≤ j → f xs[j] ≠ .lt)
  let Q : Except ℕ ℕ → Prop := fun b => ∃ p ≤ xs.length, b = .error p ∧
    ∀ j (hj : j < xs.length), f xs[j] = .lt ↔ j < p
  have hcont : ∀ s s', I s → searchStep xs f s = .next s' → I s' := by
    rintro ⟨left, right⟩ s' ⟨hle, hr, hlow, hhigh⟩ h
    obtain ⟨hlt, ⟨hf, rfl⟩ | ⟨hf, rfl⟩⟩ := searchStep_next h
    · -- `Less` at `mid`: everything up to `mid` is `Less`
      have hmid : left + (right - left) / 2 < xs.length := by omega
      rw [getElem!_pos xs _ hmid] at hf
      refine ⟨by omega, hr, fun j hj hjl => ?_, hhigh⟩
      rcases Nat.lt_or_ge j (left + (right - left) / 2) with hj' | hj'
      · exact hmono j _ hj' hmid hf
      · obtain rfl : j = left + (right - left) / 2 := by omega
        exact hf
    · -- `Greater` at `mid`: nothing from `mid` on is `Less`
      have hmid : left + (right - left) / 2 < xs.length := by omega
      rw [getElem!_pos xs _ hmid] at hf
      refine ⟨by omega, by omega, hlow, fun j hj hjr hfj => ?_⟩
      rcases Nat.lt_or_ge (left + (right - left) / 2) j with hj' | hj'
      · rw [hmono _ j hj' hj hfj] at hf
        cases hf
      · obtain rfl : j = left + (right - left) / 2 := by omega
        rw [hf] at hfj
        cases hfj
  have hdone : ∀ s b, I s → searchStep xs f s = .done b → Q b := by
    rintro ⟨left, right⟩ b ⟨hle, hr, hlow, hhigh⟩ h
    rcases searchStep_done h with ⟨hrl, rfl⟩ | ⟨hlt, hf, -⟩
    · refine ⟨left, by omega, rfl, fun j hj => ⟨fun hfj => ?_, hlow j hj⟩⟩
      by_contra hjl
      exact hhigh j hj (by omega) hfj
    · have hmid : left + (right - left) / 2 < xs.length := by omega
      rw [getElem!_pos xs _ hmid] at hf
      exact absurd hf (hne _ (List.getElem_mem hmid))
  obtain ⟨b, hb⟩ := Option.isSome_iff_exists.mp (isSome_binarySearchBy xs f)
  have hI0 : I (0, xs.length) :=
    ⟨Nat.zero_le _, Nat.le_refl _, fun j _ hj => absurd hj (Nat.not_lt_zero j),
      fun j hj hj' => absurd hj (by simp only at hj'; omega)⟩
  obtain ⟨p, hp, rfl, hpart⟩ := Loop.iterate_induction I Q hcont hdone _ _ hI0 hb
  exact ⟨p, hp, hb, hpart⟩

end Dijets.Lib.BinarySearch
