import Dijets.Move.BorrowGraphFactor
import Dijets.Move.BorrowGraphRelease
import Dijets.Move.BorrowGraphRemap
import Dijets.Move.BorrowGraphJoin

/-!
# The borrow graph over every run

The bytecode verifier drives a borrow graph from the empty one through `new_ref`, the four
borrows, `release`, `remap_refs` and `join`, each called under a precondition its caller keeps:
a new id is unused; a borrow is between two distinct references, and a strong one is to a
reference that borrows from nothing yet; a released reference exists; a renaming has distinct
new ids, none of them a reference already but as its own old id; a join is of two graphs with
the same references. `Reachable` is the graphs such calls build.

Each call keeps the invariant and does not panic (`BorrowOp.apply_of_pre`), so every reachable
graph satisfies `check_invariant` and no call under its precondition panics on it; and the
join of two reachable graphs covers both.
-/

set_option autoImplicit false

namespace Dijets.Move

open Dijets.Lib

/-- The calls the verifier makes on one borrow graph; `join`, which takes two, is apart. -/
inductive BorrowOp (Loc Lbl : Type) where
  | newRef (id : RefID) (mutable : Bool)
  | addStrongBorrow (loc : Loc) (parentId childId : RefID)
  | addStrongFieldBorrow (loc : Loc) (parentId : RefID) (field : Lbl) (childId : RefID)
  | addWeakBorrow (loc : Loc) (parentId childId : RefID)
  | addWeakFieldBorrow (loc : Loc) (parentId : RefID) (field : Lbl) (childId : RefID)
  | release (id : RefID)
  | remapRefs (idMap : List (RefID × RefID))

namespace BorrowOp

variable {Loc Lbl : Type} [LinearOrder Lbl]

/-- The call on a graph; `none` is a panic, which `remap_refs` never has. -/
def apply (g : BorrowGraph Loc Lbl) : BorrowOp Loc Lbl → Option (BorrowGraph Loc Lbl)
  | newRef id mutable => g.newRef id mutable
  | addStrongBorrow loc p c => g.addStrongBorrow loc p c
  | addStrongFieldBorrow loc p f c => g.addStrongFieldBorrow loc p f c
  | addWeakBorrow loc p c => g.addWeakBorrow loc p c
  | addWeakFieldBorrow loc p f c => g.addWeakFieldBorrow loc p f c
  | release id => g.release id
  | remapRefs idMap => some (g.remapRefs idMap)

/-- The precondition the verifier keeps for each call. -/
def Pre (g : BorrowGraph Loc Lbl) : BorrowOp Loc Lbl → Prop
  | newRef id _ => id ∉ g.ids
  | addStrongBorrow _ p c | addStrongFieldBorrow _ p _ c => p ∈ g.ids ∧ c ∈ g.ids ∧ p ≠ c ∧ g.inn c = []
  | addWeakBorrow _ p c | addWeakFieldBorrow _ p _ c => p ∈ g.ids ∧ c ∈ g.ids ∧ p ≠ c
  | release id => id ∈ g.ids
  | remapRefs idMap => Renames idMap (· ∈ g.ids)

/-- **One call keeps the invariant.** A call under its precondition on a graph of the invariant
does not panic, and its result keeps the invariant. -/
theorem apply_of_pre {g : BorrowGraph Loc Lbl} (h : g.Inv) (op : BorrowOp Loc Lbl) (hpre : op.Pre g) :
    ∃ g', op.apply g = some g' ∧ g'.Inv := by
  cases op with
  | newRef id mutable =>
    obtain ⟨g', hg', hinv, -⟩ := h.newRef hpre mutable
    exact ⟨g', hg', hinv⟩
  | addStrongBorrow loc p c =>
    obtain ⟨hp, hc, hpc, hfresh⟩ := hpre
    obtain ⟨g', hg', hinv, -⟩ := h.factor hp hc hpc hfresh loc []
    exact ⟨g', hg', hinv⟩
  | addStrongFieldBorrow loc p f c =>
    obtain ⟨hp, hc, hpc, hfresh⟩ := hpre
    obtain ⟨g', hg', hinv, -⟩ := h.factor hp hc hpc hfresh loc [f]
    exact ⟨g', hg', hinv⟩
  | addWeakBorrow loc p c =>
    obtain ⟨hp, hc, hpc⟩ := hpre
    obtain ⟨g', hg', hinv, -⟩ := h.addPath hpc hp hc loc false []
    exact ⟨g', hg', hinv⟩
  | addWeakFieldBorrow loc p f c =>
    obtain ⟨hp, hc, hpc⟩ := hpre
    obtain ⟨g', hg', hinv, -⟩ := h.addPath hpc hp hc loc false [f]
    exact ⟨g', hg', hinv⟩
  | release id =>
    obtain ⟨g', hg', hinv, -⟩ := h.release hpre
    exact ⟨g', hg', hinv⟩
  | remapRefs idMap => exact ⟨_, rfl, (h.remapRefs hpre).1⟩

end BorrowOp

namespace BorrowGraph

variable {Loc Lbl : Type} [LinearOrder Lbl]

/-- The graphs the verifier's calls build from the empty graph, each under its precondition. -/
inductive Reachable : BorrowGraph Loc Lbl → Prop where
  | new : Reachable BorrowGraph.new
  | step {g g' : BorrowGraph Loc Lbl} (op : BorrowOp Loc Lbl) :
      Reachable g → op.Pre g → op.apply g = some g' → Reachable g'
  | join {a b j : BorrowGraph Loc Lbl} :
      Reachable a → Reachable b → (∀ x, x ∈ a.ids ↔ x ∈ b.ids) → a.join b = some j → Reachable j

theorem inv_new : (BorrowGraph.new : BorrowGraph Loc Lbl).Inv where
  sorted := SortedMap.sorted_nil
  refs := fun _ he => absurd he List.not_mem_nil
  mirror := fun _ _ => by simp [BorrowGraph.new, out, inn, SortedMap.get?_nil]
  noSelf := fun _ => by simp [BorrowGraph.new, out, SortedMap.get?_nil]

/-- Every reachable graph keeps the invariant: by induction on the run, one step at a time. -/
theorem Reachable.inv {g : BorrowGraph Loc Lbl} (hg : Reachable g) : g.Inv := by
  induction hg with
  | new => exact inv_new
  | step op _ hpre hop ih =>
    obtain ⟨g', hg', hinv⟩ := op.apply_of_pre ih hpre
    rw [hop, Option.some.injEq] at hg'
    exact hg' ▸ hinv
  | join _ _ hids hj iha ihb =>
    obtain ⟨j', hj', hinv, -⟩ := iha.join ihb hids
    rw [hj, Option.some.injEq] at hj'
    exact hj' ▸ hinv

/-- **The borrow graph's invariant over every run.** Every graph the verifier's calls build
satisfies `check_invariant`, and no call under its precondition panics on it; the join of two
such graphs with the same references does not panic either, and covers both: every edge of
either is matched by an edge of the join, between the same references, that is `≤` it. -/
theorem borrowGraph_invariant :
    (∀ g : BorrowGraph Loc Lbl, Reachable g →
      g.checkInvariant = true ∧ ∀ op : BorrowOp Loc Lbl, op.Pre g → ∃ g', op.apply g = some g' ∧ Reachable g') ∧
    ∀ a b : BorrowGraph Loc Lbl, Reachable a → Reachable b → (∀ x, x ∈ a.ids ↔ x ∈ b.ids) →
      ∃ j, a.join b = some j ∧ Reachable j ∧ j.leq a = some true ∧ j.leq b = some true := by
  refine ⟨fun g hg => ⟨(checkInvariant_iff hg.inv.toWellFormed).mpr hg.inv, fun op hpre => ?_⟩,
    fun a b ha hb hids => ?_⟩
  · obtain ⟨g', hg', -⟩ := op.apply_of_pre hg.inv hpre
    exact ⟨g', hg', hg.step op hpre hg'⟩
  · obtain ⟨j, hj, -, -, hja, hjb⟩ := ha.inv.join hb.inv hids
    exact ⟨j, hj, ha.join hb hids hj, hja, hjb⟩

end BorrowGraph

end Dijets.Move
