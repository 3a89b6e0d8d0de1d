import Dijets.Move.BorrowGraphFactor
import Dijets.Move.BorrowGraphRelease

/-!
# Borrowing and releasing

How the operations of `graph.rs` compose. A new reference made a strong borrow of another and
released again leaves between every two references the strengths and paths they had
(`factor_release`): `factor` moves each edge of the parent whose path extends the borrow's path
under the new reference, with the rest of its path, and `release` splices it back through the
strong edge at that path, which gives back the whole path and the edge's own strength.

Only what the sets compare is stated: a `BTreeSet<BorrowEdge>` keeps the location of the edge
that went in first, and `leq` and `join` read strengths and paths alone.
-/

set_option autoImplicit false

namespace Dijets.Move

open Dijets.Lib

variable {Loc Lbl : Type} [LinearOrder Lbl]

namespace BorrowGraph

variable {g : BorrowGraph Loc Lbl} {p id : RefID}

omit [LinearOrder Lbl] in
/-- A new reference has no edges, and the edges between the others stay. -/
theorem edges_newRef (hid : id ∉ g.ids) (m : Bool) (x y : RefID) :
    (⟨SortedMap.insert id (Ref.new m) g.refs⟩ : BorrowGraph Loc Lbl).edges x y = g.edges x y := by
  rw [edges_insert]
  split_ifs with hx
  · rw [hx, edges_of_not_mem hid]
    rfl
  · rfl

omit [LinearOrder Lbl] in
/-- The splice through a strong edge at `path` of the rest of a path that extends `path` is the
edge back. -/
theorem spliceKey_factored {path : List Lbl} {k : EdgeKey Lbl} {pe ce : EdgeKey Lbl × Loc}
    (hpe : pe.1 = ⟨true, path⟩) (hce : ce.1 = ⟨k.strong, k.path.drop path.length⟩) (hk : path <+: k.path) :
    spliceKey pe ce = k := by
  obtain ⟨⟨s, q⟩, l⟩ := ce
  obtain ⟨⟨s', q'⟩, l'⟩ := pe
  simp only [EdgeKey.mk.injEq] at hpe hce
  obtain ⟨rfl, rfl⟩ := hpe
  obtain ⟨rfl, rfl⟩ := hce
  simp only [spliceKey, Bool.true_and, if_true, Paths.append]
  rw [List.prefix_iff_eq_append.mp hk]

/-- An edge of a graph of the invariant is between two distinct references of it. -/
theorem Inv.of_mem_keys (h : g.Inv) {x y : RefID} {k : EdgeKey Lbl} (hk : k ∈ (g.edges x y).map Prod.fst) :
    x ∈ g.ids ∧ y ∈ g.ids ∧ x ≠ y := by
  obtain ⟨e, he, -⟩ := List.mem_map.mp hk
  have hy : y ∈ g.out x := mem_out_of_mem_edges he
  exact ⟨BorrowGraph.mem_ids_of_mem_out hy, h.mem_ids_of_mem_out hy, h.ne_of_mem_out hy⟩

section Fresh

variable {g₂ : BorrowGraph Loc Lbl} {loc : Loc} {path : List Lbl}

/-- What `factor` leaves between the references of a graph in which the new reference `id` had no
edges: the edges into `id` are the one strong edge from the parent at `path`, those out of it the
rest of the moved edges, and between the others what did not move. -/
structure FactoredFresh (g g₂ : BorrowGraph Loc Lbl) (p id : RefID) (path : List Lbl) : Prop where
  into : ∀ x e, e ∈ g₂.edges x id → x = p ∧ e.1 = ⟨true, path⟩
  into_self : ⟨true, path⟩ ∈ (g₂.edges p id).map Prod.fst
  outOf : ∀ y k, k ∈ (g₂.edges id y).map Prod.fst ↔
    ∃ k' ∈ (g.edges p y).map Prod.fst, path <+: k'.path ∧ k = ⟨k'.strong, k'.path.drop path.length⟩
  between : ∀ x y k, x ≠ id → y ≠ id →
    (k ∈ (g₂.edges x y).map Prod.fst ↔ k ∈ (g.edges x y).map Prod.fst ∧ ¬(x = p ∧ path <+: k.path))

/-- `factor_spec` read for a new reference, which has no edges. -/
theorem factoredFresh (h : g.Inv) (hp : p ≠ id) (hid : id ∉ g.ids)
    (hkeys : ∀ x z k, k ∈ (g₂.edges x z).map Prod.fst ↔
      (k ∈ (g.edges x z).map Prod.fst ∧ ¬(x = p ∧ path <+: k.path)) ∨
      (x = id ∧ ∃ k' ∈ (g.edges p z).map Prod.fst, path <+: k'.path ∧ k = ⟨k'.strong, k'.path.drop path.length⟩) ∨
      (x = p ∧ z = id ∧ k = ⟨true, path⟩)) :
    FactoredFresh g g₂ p id path := by
  -- no edge of `g` ends or starts at `id`
  have hnone : ∀ x y k, k ∈ (g.edges x y).map Prod.fst → x ≠ id ∧ y ≠ id := by
    intro x y k hk
    obtain ⟨hx, hy, -⟩ := h.of_mem_keys hk
    exact ⟨fun hh => hid (hh ▸ hx), fun hh => hid (hh ▸ hy)⟩
  refine ⟨fun x e he => ?_, (hkeys p id _).mpr (Or.inr (Or.inr ⟨rfl, rfl, rfl⟩)), fun y k => ?_,
    fun x y k hx hy => ?_⟩
  · rcases (hkeys x id e.1).mp (List.mem_map_of_mem he) with ⟨hk, -⟩ | ⟨rfl, k', hk', -⟩ | ⟨rfl, -, hek⟩
    · exact absurd rfl (hnone x id e.1 hk).2
    · exact absurd rfl (hnone _ _ k' hk').2
    · exact ⟨rfl, hek⟩
  · rw [hkeys]
    constructor
    · rintro (⟨hk, -⟩ | ⟨-, hk⟩ | ⟨hh, -⟩)
      exacts [absurd rfl (hnone id y k hk).1, hk, absurd hh.symm hp]
    · exact fun hk => Or.inr (Or.inl ⟨rfl, hk⟩)
  · rw [hkeys]
    constructor
    · rintro (hk | ⟨hh, -⟩ | ⟨-, hh, -⟩)
      exacts [hk, absurd hh hx, absurd hh hy]
    · exact Or.inl

/-- Releasing the new reference splices each moved edge back whole. -/
theorem FactoredFresh.mem_keys_release (hf : FactoredFresh g g₂ p id path) (h : g.Inv) (hid : id ∉ g.ids)
    (x y : RefID) (k : EdgeKey Lbl) :
    ((k ∈ (g₂.edges x y).map Prod.fst ∧ x ≠ id ∧ y ≠ id) ∨
      (x ≠ y ∧ ∃ pe ∈ g₂.edges x id, ∃ ce ∈ g₂.edges id y, k = spliceKey pe ce)) ↔
      k ∈ (g.edges x y).map Prod.fst := by
  constructor
  · rintro (⟨hk, hx, hy⟩ | ⟨-, pe, hpe, ce, hce, rfl⟩)
    · exact ((hf.between x y k hx hy).mp hk).1
    · obtain ⟨rfl, hpe₁⟩ := hf.into x pe hpe
      obtain ⟨k', hk', hpre, hce₁⟩ := (hf.outOf y ce.1).mp (List.mem_map_of_mem hce)
      rwa [spliceKey_factored hpe₁ hce₁ hpre]
  · intro hk
    obtain ⟨hx, hy, hxy⟩ := h.of_mem_keys hk
    have hxid : x ≠ id := fun hh => hid (hh ▸ hx)
    have hyid : y ≠ id := fun hh => hid (hh ▸ hy)
    by_cases hmove : x = p ∧ path <+: k.path
    · -- a moved edge comes back as the splice of the strong edge and its rest
      obtain ⟨rfl, hpre⟩ := hmove
      obtain ⟨pe, hpe, hpe₁⟩ := List.mem_map.mp hf.into_self
      obtain ⟨ce, hce, hce₁⟩ := List.mem_map.mp ((hf.outOf y _).mpr ⟨k, hk, hpre, rfl⟩)
      exact Or.inr ⟨hxy, pe, hpe, ce, hce, (spliceKey_factored hpe₁ hce₁ hpre).symm⟩
    · exact Or.inl ⟨(hf.between x y k hxid hyid).mpr ⟨hk, hmove⟩, hxid, hyid⟩

end Fresh

/-- **A strong borrow released again changes no edge.** A new reference made a strong borrow of a
reference of a graph of the invariant at `path` (`add_strong_borrow` is `factor` at `[]`,
`add_strong_field_borrow` at `[field]`) and then released: nothing panics, the invariant holds,
and the graph has its references back and between every two of them the strengths and paths it
had. -/
theorem factor_release (h : g.Inv) (hp : p ∈ g.ids) (hid : id ∉ g.ids) (m : Bool) (loc : Loc) (path : List Lbl) :
    ∃ g₁ g₂ g₃, g.newRef id m = some g₁ ∧ g₁.factor p loc path id = some g₂ ∧ g₂.release id = some g₃ ∧
      g₃.Inv ∧ (∀ x, x ∈ g₃.ids ↔ x ∈ g.ids) ∧
      ∀ x y k, k ∈ (g₃.edges x y).map Prod.fst ↔ k ∈ (g.edges x y).map Prod.fst := by
  have hpid : p ≠ id := fun hh => hid (hh ▸ hp)
  obtain ⟨g₁, hg₁, hinv₁, hids₁⟩ := h.newRef hid m
  obtain rfl : g₁ = ⟨SortedMap.insert id (Ref.new m) g.refs⟩ :=
    Option.some.inj (hg₁.symm.trans (newRef_of_not_mem hid m))
  have hinn₁ : (⟨SortedMap.insert id (Ref.new m) g.refs⟩ : BorrowGraph Loc Lbl).inn id = [] := by
    rw [inn_insert, if_pos rfl]
    rfl
  obtain ⟨g₂, hg₂, hinv₂, hids₂, hkeys₂⟩ :=
    factor_spec hinv₁ ((hids₁ p).mpr (Or.inr hp)) ((hids₁ id).mpr (Or.inl rfl)) hpid hinn₁ loc path
  simp only [edges_newRef hid] at hkeys₂
  have hf : FactoredFresh g g₂ p id path := factoredFresh h hpid hid hkeys₂
  obtain ⟨r, hr⟩ := mem_ids_iff.mp ((hids₂ id).mpr ((hids₁ id).mpr (Or.inl rfl)))
  obtain ⟨g₃, hg₃, hrel⟩ := releasing_release hinv₂ hr
  refine ⟨_, g₂, g₃, hg₁, hg₂, hg₃, hrel.inv hr, fun x => ?_, fun x y k => ?_⟩
  · rw [hrel.ids_iff, hids₂, hids₁]
    constructor
    · rintro ⟨hx | hx, hne⟩
      exacts [absurd hx hne, hx]
    · exact fun hx => ⟨Or.inr hx, fun hh => hid (hh ▸ hx)⟩
  · rw [hrel.mem_keys_iff hinv₂]
    exact hf.mem_keys_release h hid x y k

/-- A new reference `3` borrowing field `5` of the middle reference of `chain`, which moves the
weak edge at `[5]` under it, and released again. -/
theorem factor_release_chain :
    ∃ g₁ g₂ g₃, chain.newRef 3 true = some g₁ ∧ g₁.factor 1 () [5] 3 = some g₂ ∧ g₂.release 3 = some g₃ ∧
      g₃.Inv ∧ (∀ x, x ∈ g₃.ids ↔ x ∈ chain.ids) ∧
      ∀ x y k, k ∈ (g₃.edges x y).map Prod.fst ↔ k ∈ (chain.edges x y).map Prod.fst :=
  factor_release (by decide) (by decide) (by decide) true () [5]

end BorrowGraph

end Dijets.Move
