import Mathlib.Logic.Relation
import Mathlib.Order.WellFounded
import Mathlib.Data.List.Dedup
import Dijets.Lib.Loop

/-!
# Topological sort of a graph given by its edges

A graph given by a list of edges, as `DiGraphMap::from_edges` builds it: its nodes
are the ends of its edges. A topological sort answers an order of the nodes when
the graph has no cycle, self-loops included, and an error naming a node otherwise;
`SortSpec` is that contract, for a sort taken as a parameter. `kahnSort` meets it
(`kahnSort_spec`), so the contract can be met: it computes by Kahn's algorithm,
round after round removing the remaining nodes that no remaining node has an edge
to.

The two halves of the contract rest on one invariant each. A node on a cycle
always has a predecessor on the cycle, so it is never removed, and an order
leaves no node on a cycle (`acyclic_of_kahn_eq_ok`). A graph without cycles is
well founded (`wellFounded_of_acyclic`), so every nonempty set of its nodes has
one without a predecessor in the set, and each round removes one
(`kahn_isOk_of_acyclic`).
-/
set_option autoImplicit false

namespace Dijets.Lib.Toposort

open Relation

universe u

variable {α : Type u}

/-- A nonempty path along the edges. -/
def Path (edges : List (α × α)) (a b : α) : Prop :=
  TransGen (fun a b => (a, b) ∈ edges) a b

/-- No node lies on a cycle, self-loops included. -/
def Acyclic (edges : List (α × α)) : Prop :=
  ∀ v, ¬ Path edges v v

/-- The contract of a topological sort: it answers an order exactly when the graph
has no cycle. -/
structure SortSpec (sort : List (α × α) → Except α (List α)) : Prop where
  isOk_iff : ∀ edges, (sort edges).isOk ↔ Acyclic edges

/-! ## Graphs without cycles are well founded -/

/-- A relation whose every step starts in a finite list, and whose paths never
return, is well founded: a step from `a` to `b` raises the number of entries of the
list with a path to the node. -/
theorem wellFounded_of_transGen_irrefl {r : α → α → Prop} (S : List α)
    (hS : ∀ a b, r a b → a ∈ S) (hirr : ∀ a, ¬ TransGen r a a) : WellFounded r := by
  classical
  let rank : α → ℕ := fun x => S.countP fun y => decide (TransGen r y x)
  refine Subrelation.wf (fun {a b} hab => ?_) (InvImage.wf rank wellFounded_lt)
  show rank a < rank b
  exact Loop.countP_lt_countP (fun y _ hy => decide_eq_true ((of_decide_eq_true hy).tail hab))
    (hS a b hab) (decide_eq_true (TransGen.single hab)) (by simpa using hirr a)

variable [DecidableEq α]

/-- `DiGraphMap::from_edges`'s nodes: the ends of the edges, each once. -/
def nodes (edges : List (α × α)) : List α :=
  (edges.flatMap fun e => [e.1, e.2]).dedup

theorem fst_mem_nodes {edges : List (α × α)} {a b : α} (h : (a, b) ∈ edges) :
    a ∈ nodes edges := by
  simp only [nodes, List.mem_dedup, List.mem_flatMap]
  exact ⟨(a, b), h, by simp⟩

theorem snd_mem_nodes {edges : List (α × α)} {a b : α} (h : (a, b) ∈ edges) :
    b ∈ nodes edges := by
  simp only [nodes, List.mem_dedup, List.mem_flatMap]
  exact ⟨(a, b), h, by simp⟩

theorem wellFounded_of_acyclic {edges : List (α × α)} (h : Acyclic edges) :
    WellFounded fun a b => (a, b) ∈ edges :=
  wellFounded_of_transGen_irrefl (nodes edges) (fun _ _ hab => fst_mem_nodes hab) h

/-! ## Kahn's algorithm -/

/-- The remaining nodes that no remaining node has an edge to. -/
def sources (edges : List (α × α)) (remaining : List α) : List α :=
  remaining.filter fun v => edges.all fun e => !(decide (e.2 = v) && decide (e.1 ∈ remaining))

theorem mem_sources {edges : List (α × α)} {remaining : List α} {v : α} :
    v ∈ sources edges remaining ↔ v ∈ remaining ∧ ∀ u ∈ remaining, (u, v) ∉ edges := by
  simp only [sources, List.mem_filter, List.all_eq_true, Bool.not_eq_true', Bool.and_eq_false_iff,
    decide_eq_false_iff_not]
  refine and_congr_right fun _ => ⟨fun h u hu he => ?_, fun h e he => ?_⟩
  · rcases h (u, v) he with h | h <;> simp_all
  · by_cases hv : e.2 = v
    · exact Or.inr fun hu => h e.1 hu (hv ▸ he)
    · exact Or.inl hv

/-- Rounds of removal, with at most `fuel` rounds; `order` is what was removed so far. -/
def kahn (edges : List (α × α)) : ℕ → List α → List α → Except α (List α)
  | _, [], order => .ok order
  | 0, v :: _, _ => .error v
  | fuel + 1, v :: vs, order =>
    match sources edges (v :: vs) with
    | [] => .error v
    | srcs@(_ :: _) => kahn edges fuel ((v :: vs).filter fun w => w ∉ srcs) (order ++ srcs)

/-- Kahn's algorithm: an order of the nodes, or a node at which no order could go on.
One round per node is enough. -/
def kahnSort (edges : List (α × α)) : Except α (List α) :=
  kahn edges (nodes edges).length (nodes edges) []

omit [DecidableEq α] in
/-- A node on a cycle has a predecessor on the cycle. -/
theorem exists_pred_of_path {edges : List (α × α)} {v : α} (h : Path edges v v) :
    ∃ u, (u, v) ∈ edges ∧ Path edges u u := by
  obtain ⟨u, hvu, huv⟩ := TransGen.tail'_iff.mp h
  exact ⟨u, huv, TransGen.head' huv hvu⟩

/-- The invariant of a run: every node on a cycle is still there. -/
def CyclesRemain (edges : List (α × α)) (remaining : List α) : Prop :=
  ∀ v, Path edges v v → v ∈ remaining

theorem CyclesRemain.removeSources {edges : List (α × α)} {remaining : List α}
    (h : CyclesRemain edges remaining) :
    CyclesRemain edges (remaining.filter fun w => w ∉ sources edges remaining) := by
  intro v hv
  obtain ⟨u, huv, hu⟩ := exists_pred_of_path hv
  simp only [List.mem_filter, decide_eq_true_eq, mem_sources, not_and, not_forall, not_not]
  exact ⟨h v hv, fun _ => ⟨u, h u hu, huv⟩⟩

theorem acyclic_of_kahn_eq_ok {edges : List (α × α)} :
    ∀ (fuel : ℕ) (remaining order result : List α), CyclesRemain edges remaining →
      kahn edges fuel remaining order = .ok result → Acyclic edges := by
  intro fuel
  induction fuel with
  | zero =>
    rintro (_ | ⟨v, vs⟩) order result hinv h
    · exact fun v hv => by simpa using hinv v hv
    · cases h
  | succ fuel ih =>
    rintro (_ | ⟨v, vs⟩) order result hinv h
    · exact fun v hv => by simpa using hinv v hv
    · simp only [kahn] at h
      split at h
      · cases h
      · rename_i srcs _ hsrcs
        rw [← hsrcs] at h
        exact ih _ _ _ hinv.removeSources h

/-- Without cycles, a nonempty set of nodes has one that no node of the set points to. -/
theorem sources_ne_nil {edges : List (α × α)} (h : Acyclic edges) {remaining : List α}
    (hne : remaining ≠ []) : sources edges remaining ≠ [] := by
  obtain ⟨v, hv⟩ := List.exists_mem_of_ne_nil remaining hne
  obtain ⟨m, hm, hmin⟩ := (wellFounded_of_acyclic h).has_min {x | x ∈ remaining} ⟨v, hv⟩
  exact List.ne_nil_of_mem (Iff.mpr mem_sources ⟨hm, fun u hu huv => hmin u hu huv⟩)

theorem kahn_isOk_of_acyclic {edges : List (α × α)} (h : Acyclic edges) :
    ∀ (fuel : ℕ) (remaining order : List α), remaining.length ≤ fuel →
      (kahn edges fuel remaining order).isOk := by
  intro fuel
  induction fuel with
  | zero =>
    rintro (_ | ⟨v, vs⟩) order hlen
    · rfl
    · simp at hlen
  | succ fuel ih =>
    rintro (_ | ⟨v, vs⟩) order hlen
    · rfl
    · simp only [kahn]
      split
      · exact absurd ‹_› (sources_ne_nil h (List.cons_ne_nil v vs))
      · rename_i srcs s ss hsrcs
        rw [← hsrcs]
        refine ih _ _ ?_
        -- a source is removed, so the round shortens the list
        have hs : s ∈ sources edges (v :: vs) := by rw [hsrcs]; exact List.mem_cons_self
        have hlt : ((v :: vs).filter fun w => w ∉ sources edges (v :: vs)).length <
            (v :: vs).length :=
          List.length_filter_lt_length_iff_exists.mpr ⟨s, (Iff.mp mem_sources hs).1, by simpa using hs⟩
        omega

/-- **Kahn's algorithm meets the contract.** It answers an order exactly when the graph
has no cycle. -/
theorem kahnSort_spec : SortSpec (@kahnSort α _) where
  isOk_iff edges := by
    constructor
    · intro h
      unfold kahnSort at h
      cases hk : kahn edges (nodes edges).length (nodes edges) [] with
      | error v => rw [hk] at h; cases h
      | ok result =>
        refine acyclic_of_kahn_eq_ok _ _ _ _ (fun v hv => ?_) hk
        obtain ⟨u, huv, -⟩ := exists_pred_of_path hv
        exact snd_mem_nodes huv
    · intro h
      exact kahn_isOk_of_acyclic h _ _ _ le_rfl

end Dijets.Lib.Toposort
