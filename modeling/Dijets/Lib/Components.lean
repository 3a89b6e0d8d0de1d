import Mathlib.Logic.Relation
import Mathlib.Data.List.Dedup
import Mathlib.Data.List.Perm.Subperm
import Dijets.Lib.Toposort

/-!
# Strongly connected components of a graph given by its edges

A search for the strongly connected components, Tarjan's for one, answers the classes
of the graph's nodes under mutual reachability. `SccSpec` is that contract, for a
search taken as a parameter; which order the search lists the classes and their nodes
in is not part of it. `closureScc` meets it (`closureScc_spec`), so the contract can
be met: it lists the classes in the order of the nodes, each once.

Reachability is computed as a closure. `grow` adds to a set of nodes the successors
it lacks; each round either adds a node or finds the set closed under the edges
(`closed_or_long`), and the set never leaves the start node and the graph's nodes,
so `(nodes edges).length + 1` rounds reach a closed set (`closed_reachSet`). A closed
set holding the start node holds everything reachable from it.

## Main results

* `mem_reachSet_iff` — the closure is exactly what a path reaches.
* `SccSpec.exists_component_iff` — two nodes share a component exactly when each
  reaches the other.
* `SccSpec.exists_component_of_edge_iff` — an edge lies inside a component exactly
  when it lies on a cycle.
-/

set_option autoImplicit false

namespace Dijets.Lib.Components

open Relation Toposort

universe u

variable {α : Type u} [DecidableEq α]

/-- One edge of the graph. -/
def Step (edges : List (α × α)) (a b : α) : Prop :=
  (a, b) ∈ edges

/-- One round of the closure: the successors of `S` that `S` lacks, added at its end. -/
def grow (edges : List (α × α)) (S : List α) : List α :=
  S ++ (((edges.filter fun e => e.1 ∈ S).map Prod.snd).filter fun x => x ∉ S).dedup

/-- The nodes reachable from `a`. -/
def reachSet (edges : List (α × α)) (a : α) : List α :=
  (grow edges)^[(nodes edges).length + 1] [a]

/-- Reachability, as a test. -/
def reachable (edges : List (α × α)) (a b : α) : Bool :=
  decide (b ∈ reachSet edges a)

/-- A set that holds every successor of its members. -/
def Closed (edges : List (α × α)) (S : List α) : Prop :=
  ∀ y ∈ S, ∀ x, (y, x) ∈ edges → x ∈ S

/-! ## One round -/

section Grow

variable {edges : List (α × α)} {S : List α}

theorem mem_grow {x : α} : x ∈ grow edges S ↔ x ∈ S ∨ ∃ y ∈ S, (y, x) ∈ edges := by
  simp only [grow, List.mem_append, List.mem_dedup, List.mem_filter, List.mem_map,
    decide_eq_true_eq, decide_not, Bool.not_eq_eq_eq_not, Bool.not_true, decide_eq_false_iff_not]
  constructor
  · rintro (hx | ⟨⟨e, ⟨he, hS⟩, rfl⟩, -⟩)
    · exact Or.inl hx
    · exact Or.inr ⟨e.1, hS, he⟩
  · rintro (hx | ⟨y, hy, hyx⟩)
    · exact Or.inl hx
    · by_cases hx : x ∈ S
      · exact Or.inl hx
      · exact Or.inr ⟨⟨(y, x), ⟨hyx, hy⟩, rfl⟩, hx⟩

theorem nodup_grow (h : S.Nodup) : (grow edges S).Nodup := by
  refine List.nodup_append.mpr ⟨h, List.nodup_dedup _, fun a ha b hb hab => ?_⟩
  subst hab
  simp only [List.mem_dedup, List.mem_filter, decide_eq_true_eq] at hb
  exact hb.2 ha

/-- A closed set gains nothing. -/
theorem grow_of_closed (h : Closed edges S) : grow edges S = S := by
  have hnew : (((edges.filter fun e => e.1 ∈ S).map Prod.snd).filter fun x => x ∉ S) = [] := by
    simp only [List.filter_eq_nil_iff, List.mem_map, List.mem_filter, decide_eq_true_eq,
      decide_not, Bool.not_eq_eq_eq_not, Bool.not_true, decide_eq_false_iff_not, not_not]
    rintro _ ⟨e, ⟨he, hS⟩, rfl⟩
    exact h e.1 hS e.2 he
  simp only [grow, hnew, List.dedup_nil, List.append_nil]

/-- A set that is not closed gains a node. -/
theorem length_lt_grow (h : ¬ Closed edges S) : S.length < (grow edges S).length := by
  simp only [Closed, not_forall, exists_prop] at h
  obtain ⟨y, hy, x, hyx, hx⟩ := h
  have hmem : x ∈ (((edges.filter fun e => e.1 ∈ S).map Prod.snd).filter fun x => x ∉ S).dedup := by
    simp only [List.mem_dedup, List.mem_filter, List.mem_map, decide_eq_true_eq, decide_not,
      Bool.not_eq_eq_eq_not, Bool.not_true, decide_eq_false_iff_not]
    exact ⟨⟨(y, x), ⟨hyx, hy⟩, rfl⟩, hx⟩
  have hpos := List.length_pos_of_mem hmem
  simp only [grow, List.length_append]
  omega

/-- A round stays within the start node and the graph's nodes. -/
theorem grow_subset {a : α} (h : S ⊆ a :: nodes edges) : grow edges S ⊆ a :: nodes edges := by
  intro x hx
  rcases Iff.mp mem_grow hx with hx | ⟨y, -, hyx⟩
  · exact h hx
  · exact List.mem_cons_of_mem a (snd_mem_nodes hyx)

end Grow

/-! ## Rounds from one node -/

section Rounds

variable {edges : List (α × α)} {a : α}

theorem iterate_grow_nodup (k : ℕ) : ((grow edges)^[k] [a]).Nodup := by
  induction k with
  | zero => exact List.nodup_singleton a
  | succ k ih =>
    rw [Function.iterate_succ_apply']
    exact nodup_grow ih

theorem start_mem_iterate (k : ℕ) : a ∈ (grow edges)^[k] [a] := by
  induction k with
  | zero => exact List.mem_singleton_self a
  | succ k ih =>
    rw [Function.iterate_succ_apply']
    exact Iff.mpr mem_grow (Or.inl ih)

theorem iterate_grow_subset (k : ℕ) : (grow edges)^[k] [a] ⊆ a :: nodes edges := by
  induction k with
  | zero => simp
  | succ k ih =>
    rw [Function.iterate_succ_apply']
    exact grow_subset ih

/-- Each round either finds the set closed or has added a node. -/
theorem closed_or_long (k : ℕ) :
    Closed edges ((grow edges)^[k] [a]) ∨ k + 1 ≤ ((grow edges)^[k] [a]).length := by
  induction k with
  | zero => exact Or.inr le_rfl
  | succ k ih =>
    rw [Function.iterate_succ_apply']
    by_cases hc : Closed edges ((grow edges)^[k] [a])
    · rw [grow_of_closed hc]
      exact Or.inl hc
    · have hlt := length_lt_grow hc
      rcases ih with h | h
      · exact absurd h hc
      · exact Or.inr (by omega)

/-- After one round per node and one more, the set is closed. -/
theorem closed_reachSet : Closed edges (reachSet edges a) := by
  rcases @closed_or_long _ _ edges a ((nodes edges).length + 1) with h | h
  · exact h
  · -- the set has no repeats and lies within `a :: nodes edges`
    have hle := (List.Nodup.subperm (iterate_grow_nodup ((nodes edges).length + 1))
      (@iterate_grow_subset _ _ edges a ((nodes edges).length + 1))).length_le
    simp only [List.length_cons] at hle
    omega

theorem reachable_of_mem_iterate (k : ℕ) {x : α} (hx : x ∈ (grow edges)^[k] [a]) :
    ReflTransGen (Step edges) a x := by
  induction k generalizing x with
  | zero =>
    rw [List.mem_singleton.mp hx]
  | succ k ih =>
    rw [Function.iterate_succ_apply'] at hx
    rcases Iff.mp mem_grow hx with hx | ⟨y, hy, hyx⟩
    · exact ih hx
    · exact (ih hy).tail hyx

omit [DecidableEq α] in
/-- A closed set holding `a` holds everything `a` reaches. -/
theorem Closed.mem_of_reflTransGen {S : List α} (hS : Closed edges S) (ha : a ∈ S) {x : α}
    (h : ReflTransGen (Step edges) a x) : x ∈ S := by
  induction h with
  | refl => exact ha
  | tail _ hyx ih => exact hS _ ih _ hyx

theorem mem_reachSet_iff {x : α} : x ∈ reachSet edges a ↔ ReflTransGen (Step edges) a x := by
  constructor
  · exact reachable_of_mem_iterate _
  · exact Closed.mem_of_reflTransGen closed_reachSet (start_mem_iterate _)

end Rounds

/-! ## Components -/

section Components

variable {edges : List (α × α)}

/-- Each reaches the other. -/
def Mutual (edges : List (α × α)) (v w : α) : Prop :=
  ReflTransGen (Step edges) v w ∧ ReflTransGen (Step edges) w v

omit [DecidableEq α] in
theorem Mutual.symm {v w : α} (h : Mutual edges v w) : Mutual edges w v :=
  ⟨h.2, h.1⟩

omit [DecidableEq α] in
theorem Mutual.trans {u v w : α} (huv : Mutual edges u v) (hvw : Mutual edges v w) :
    Mutual edges u w :=
  ⟨huv.1.trans hvw.1, hvw.2.trans huv.2⟩

/-- The contract of a search for the strongly connected components: a component is
made of the graph's nodes, which each reach the other, and a node of the graph shares
a component with every node it reaches and that reaches it. -/
structure SccSpec (scc : List (α × α) → List (List α)) : Prop where
  mem_nodes : ∀ {edges c a}, c ∈ scc edges → a ∈ c → a ∈ nodes edges
  sound : ∀ {edges c a b}, c ∈ scc edges → a ∈ c → b ∈ c → Mutual edges a b
  complete : ∀ {edges a b}, a ∈ nodes edges → Mutual edges a b →
    ∃ c ∈ scc edges, a ∈ c ∧ b ∈ c

variable {scc : List (α × α) → List (List α)}

/-- Two nodes share a component exactly when each reaches the other. -/
theorem SccSpec.exists_component_iff (h : SccSpec scc) {a b : α} :
    (∃ c ∈ scc edges, a ∈ c ∧ b ∈ c) ↔ a ∈ nodes edges ∧ b ∈ nodes edges ∧ Mutual edges a b := by
  constructor
  · rintro ⟨c, hc, ha, hb⟩
    exact ⟨h.mem_nodes hc ha, h.mem_nodes hc hb, h.sound hc ha hb⟩
  · rintro ⟨ha, -, hab⟩
    exact h.complete ha hab

/-- An edge lies inside a component exactly when its target reaches its source. -/
theorem SccSpec.exists_component_of_edge_iff (h : SccSpec scc) {a b : α} (hab : (a, b) ∈ edges) :
    (∃ c ∈ scc edges, a ∈ c ∧ b ∈ c) ↔ ReflTransGen (Step edges) b a := by
  rw [h.exists_component_iff]
  constructor
  · rintro ⟨-, -, -, hba⟩
    exact hba
  · intro hba
    exact ⟨fst_mem_nodes hab, snd_mem_nodes hab, ReflTransGen.single hab, hba⟩

/-! ## Components by closure -/

/-- For each node, the nodes that reach it and that it reaches; each class once. -/
def closureScc (edges : List (α × α)) : List (List α) :=
  ((nodes edges).map fun v =>
    (nodes edges).filter fun w => reachable edges v w && reachable edges w v).dedup

theorem reachable_iff {a b : α} : reachable edges a b = true ↔ ReflTransGen (Step edges) a b := by
  simp only [reachable, decide_eq_true_eq, mem_reachSet_iff]

/-- The component of `v`: the nodes mutually reachable with it. -/
theorem mem_filter_mutual_iff {v w : α} :
    w ∈ (nodes edges).filter (fun w => reachable edges v w && reachable edges w v) ↔
      w ∈ nodes edges ∧ Mutual edges v w := by
  simp only [List.mem_filter, Bool.and_eq_true, reachable_iff, Mutual]

theorem mem_closureScc_iff {c : List α} :
    c ∈ closureScc edges ↔ ∃ v ∈ nodes edges,
      c = (nodes edges).filter fun w => reachable edges v w && reachable edges w v := by
  simp only [closureScc, List.mem_dedup, List.mem_map]
  constructor
  · rintro ⟨v, hv, rfl⟩
    exact ⟨v, hv, rfl⟩
  · rintro ⟨v, hv, rfl⟩
    exact ⟨v, hv, rfl⟩

/-- **The closure meets the contract.** -/
theorem closureScc_spec : SccSpec (@closureScc α _) where
  mem_nodes hc ha := by
    obtain ⟨v, -, rfl⟩ := mem_closureScc_iff.mp hc
    exact (mem_filter_mutual_iff.mp ha).1
  sound hc ha hb := by
    obtain ⟨v, -, rfl⟩ := mem_closureScc_iff.mp hc
    -- both are mutually reachable with `v`
    exact (mem_filter_mutual_iff.mp ha).2.symm.trans (mem_filter_mutual_iff.mp hb).2
  complete {edges a b} ha hab := by
    refine ⟨_, mem_closureScc_iff.mpr ⟨a, ha, rfl⟩, ?_, ?_⟩
    · exact mem_filter_mutual_iff.mpr ⟨ha, ReflTransGen.refl, ReflTransGen.refl⟩
    · -- the component of `a` holds `b`, a node since a path from `a` reaches it
      refine mem_filter_mutual_iff.mpr ⟨?_, hab⟩
      rcases ReflTransGen.cases_tail hab.1 with rfl | ⟨c, -, hcb⟩
      · exact ha
      · exact snd_mem_nodes hcb

end Components

end Dijets.Lib.Components
