import Mathlib

/-!
# Covering one set by another

`Covers r A B`: every element of `B` is `r`-above some element of `A`. Under a preorder `r` this
is a preorder on sets (`Covers.refl`, `Covers.trans`), and a set covers `A ∪ B` exactly when it
covers both. So a set `J` inside `A ∪ B` that covers both is a greatest lower bound of the two
(`covers_iff_of_subset_union`): a join that adds to `A` the elements of `B` it does not cover is
the meet of `A` and `B` in this order.
-/

set_option autoImplicit false

namespace Dijets.Lib.Cover

variable {α : Type*} {r : α → α → Prop} {A B B' C J : Set α}

/-- `A` covers `B` under `r`. -/
def Covers (r : α → α → Prop) (A B : Set α) : Prop := ∀ b ∈ B, ∃ a ∈ A, r a b

theorem Covers.refl [Std.Refl r] (A : Set α) : Covers r A A :=
  fun b hb => ⟨b, hb, refl_of r b⟩

theorem Covers.trans [IsTrans α r] (hAB : Covers r A B) (hBC : Covers r B C) : Covers r A C := by
  intro c hc
  obtain ⟨b, hb, hbc⟩ := hBC c hc
  obtain ⟨a, ha, hab⟩ := hAB b hb
  exact ⟨a, ha, trans_of r hab hbc⟩

theorem Covers.mono_right (h : Covers r A B) (hB : B' ⊆ B) : Covers r A B' :=
  fun b hb => h b (hB hb)

theorem covers_union_iff : Covers r C (A ∪ B) ↔ Covers r C A ∧ Covers r C B := by
  refine ⟨fun h => ⟨h.mono_right Set.subset_union_left, h.mono_right Set.subset_union_right⟩, ?_⟩
  intro h b hb
  rcases hb with hb | hb
  exacts [h.1 b hb, h.2 b hb]

/-- A set inside `A ∪ B` that covers both is their greatest lower bound. -/
theorem covers_iff_of_subset_union [IsTrans α r] (hJ : J ⊆ A ∪ B) (hJA : Covers r J A) (hJB : Covers r J B) :
    Covers r C J ↔ Covers r C A ∧ Covers r C B :=
  ⟨fun h => ⟨h.trans hJA, h.trans hJB⟩, fun h => (covers_union_iff.mpr h).mono_right hJ⟩

end Dijets.Lib.Cover
