import Dijets.Move.BorrowGraphInvariant
import Dijets.Lib.OptionLoop

/-!
# Strong borrows

`add_strong_borrow` and `add_strong_field_borrow` are `factor`: the new reference becomes a
strong borrow of the parent at `path`, and every edge of the parent whose path extends `path`
moves under it. `factor` does this in four loops: the moved edges leave the parent, a borrower
left with none leaving its map for `cleanup_ids` (`removeFactored`); the parent leaves the
`borrows_from` of those borrowers (`cleanupBorrower`); each moved edge is added from the new
reference (`addFactoredEdge`); and last the edge from the parent to it.

The first loop's `assert!`s need each edge still to move to be there when its turn comes; its
invariant (`RemoveInv`) says so, and that the borrowers the parent has lost are those in
`cleanup_ids`. After the second loop the graph keeps the invariant again, with the moved edges
gone (`inv_cleanup`), and the last two add edges through `add_edge`. So `factor` keeps the
invariant and does not panic when the new reference borrows from nothing (`Inv.factor`).
-/

set_option autoImplicit false

namespace Dijets.Move

open Dijets.Lib Dijets.Lib.OptionLoop

variable {Loc Lbl : Type} [LinearOrder Lbl]

namespace BorrowGraph

variable {g : BorrowGraph Loc Lbl} {parent : Ref Loc Lbl} {path : List Lbl}

/-! ## The edges to move -/

/-- An edge to move, by its borrower and what its set compares. -/
def moveKey (y : RefID × BorrowEdge Loc Lbl) : RefID × EdgeKey Lbl := (y.1, y.2.key)

omit [LinearOrder Lbl] in
theorem key_ofEntry (x : EdgeKey Lbl × Loc) : (BorrowEdge.ofEntry x : BorrowEdge Loc Lbl).key = x.1 := rfl

theorem mem_needsFactored {y : RefID × BorrowEdge Loc Lbl} :
    y ∈ needsFactored parent path ↔
      ∃ S, (y.1, S) ∈ parent.borrowedBy ∧ ∃ x ∈ S, Paths.leq path x.1.path = true ∧ y.2 = BorrowEdge.ofEntry x := by
  obtain ⟨c, e⟩ := y
  simp only [needsFactored, List.mem_flatMap, List.mem_map, List.mem_filter, Prod.mk.injEq]
  constructor
  · rintro ⟨⟨c', S⟩, hS, e', ⟨x, ⟨hx, hleq⟩, rfl⟩, rfl, rfl⟩
    exact ⟨S, hS, x, hx, hleq, rfl⟩
  · rintro ⟨S, hS, x, hx, hleq, rfl⟩
    exact ⟨(c, S), hS, _, ⟨x, ⟨hx, hleq⟩, rfl⟩, rfl, rfl⟩

/-- The edges to move are the parent's and extend `path`. -/
theorem of_mem_needsFactored {y : RefID × BorrowEdge Loc Lbl} (hy : y ∈ needsFactored parent path) :
    y.1 ∈ parent.borrowedBy.map Prod.fst ∧ Paths.leq path y.2.path = true := by
  obtain ⟨S, hS, x, -, hleq, hx⟩ := mem_needsFactored.mp hy
  exact ⟨List.mem_map_of_mem (f := Prod.fst) hS, hx ▸ hleq⟩

/-- Each edge to move stands once in the list: borrowers do not repeat in `borrowed_by`, nor
keys in a set. -/
theorem nodup_moveKeys (path : List Lbl) (hr : RefSorted parent) : ((needsFactored parent path).map moveKey).Nodup := by
  have heq : (needsFactored parent path).map moveKey = parent.borrowedBy.flatMap fun e =>
      ((e.2.filter fun x => Paths.leq path x.1.path).map Prod.fst).map (Prod.mk e.1) := by
    simp [needsFactored, List.map_flatMap, Function.comp_def, moveKey, key_ofEntry]
  rw [heq, List.nodup_flatMap]
  refine ⟨fun e he => ?_, hr.borrowedBy.imp fun {a b} hab => ?_⟩
  · exact ((hr.edges e he).nodup_keys.sublist (List.filter_sublist.map Prod.fst)).map (Prod.mk_right_injective e.1)
  · intro z hza hzb
    obtain ⟨_, _, rfl⟩ := List.mem_map.mp hza
    obtain ⟨_, _, h⟩ := List.mem_map.mp hzb
    exact absurd (congrArg Prod.fst h) (ne_of_gt hab)

/-- Before the first loop every edge to move is in the parent's map. -/
theorem exists_of_mem_moveKeys (hr : RefSorted parent) {c : RefID} {k : EdgeKey Lbl}
    (hck : (c, k) ∈ (needsFactored parent path).map moveKey) :
    ∃ S, SortedMap.get? c parent.borrowedBy = some S ∧ k ∈ S.map Prod.fst := by
  obtain ⟨y, hy, hyk⟩ := List.mem_map.mp hck
  obtain ⟨S, hS, x, hx, -, hyx⟩ := mem_needsFactored.mp hy
  simp only [moveKey, Prod.mk.injEq] at hyk
  obtain ⟨rfl, rfl⟩ := hyk
  refine ⟨S, (SortedMap.get?_eq_some_iff hr.borrowedBy).mpr hS, ?_⟩
  rw [hyx, key_ofEntry]
  exact List.mem_map_of_mem hx

/-! ## The first loop -/

/-- What the first loop of `factor` keeps after moving the edges `pre`: the parent's
`borrows_from` and the order of its maps; the borrowers it has lost, which are those in
`cleanup_ids`; and every edge still to move, which is still there. -/
structure RemoveInv (parent : Ref Loc Lbl) (path : List Lbl) (pre : List (RefID × BorrowEdge Loc Lbl))
    (acc : Ref Loc Lbl × List (RefID × Unit)) : Prop where
  borrowsFrom : acc.1.borrowsFrom = parent.borrowsFrom
  sorted : RefSorted acc.1
  sortedCleanup : SortedMap.Sorted acc.2
  sub : ∀ c ∈ acc.1.borrowedBy.map Prod.fst, c ∈ parent.borrowedBy.map Prod.fst
  cleanup : ∀ c, c ∈ acc.2.map Prod.fst ↔
    c ∈ parent.borrowedBy.map Prod.fst ∧ c ∉ acc.1.borrowedBy.map Prod.fst
  todo : ∀ c k, (c, k) ∈ (needsFactored parent path).map moveKey → (c, k) ∉ pre.map moveKey →
    ∃ S, SortedMap.get? c acc.1.borrowedBy = some S ∧ k ∈ S.map Prod.fst

theorem removeInv_nil (hr : RefSorted parent) : RemoveInv parent path [] (parent, []) where
  borrowsFrom := rfl
  sorted := hr
  sortedCleanup := SortedMap.sorted_nil
  sub := fun _ hc => hc
  cleanup := fun c => by simp
  todo := fun c k hck _ => exists_of_mem_moveKeys hr hck

section Step

variable {pre : List (RefID × BorrowEdge Loc Lbl)} {P : Ref Loc Lbl} {C : List (RefID × Unit)}
  {x : RefID × BorrowEdge Loc Lbl}

/-- A pass of the first loop at an edge still to move does not panic, and keeps `RemoveInv`. -/
theorem RemoveInv.step (h : RemoveInv parent path pre (P, C))
    (hx : moveKey x ∈ (needsFactored parent path).map moveKey) (hxpre : moveKey x ∉ pre.map moveKey) :
    ∃ acc, removeFactoredEdge (P, C) x = some acc ∧ RemoveInv parent path (pre ++ [x]) acc := by
  obtain ⟨S, hS, hk⟩ : ∃ S, SortedMap.get? x.1 P.borrowedBy = some S ∧ x.2.key ∈ S.map Prod.fst :=
    h.todo x.1 x.2.key hx hxpre
  have hSs : SortedMap.Sorted S := h.sorted.edges _ (SortedMap.mem_of_get? hS)
  have hkS : SortedMap.get? x.2.key S ≠ none := Option.ne_none_iff_isSome.mpr (SortedMap.get?_isSome_iff.mpr hk)
  have hxP : x.1 ∈ P.borrowedBy.map Prod.fst := SortedMap.mem_keys_of_get? hS
  set S' := SortedMap.erase x.2.key S with hS'
  -- an edge still to move after this one is in the borrower's set, and not this edge
  have hrest : ∀ c k, (c, k) ∈ (needsFactored parent path).map moveKey → (c, k) ∉ (pre ++ [x]).map moveKey →
      ∃ T, SortedMap.get? c P.borrowedBy = some T ∧ k ∈ T.map Prod.fst ∧ (c = x.1 → k ∈ S'.map Prod.fst) := by
    intro c k hck hckpre
    rw [List.map_append, List.mem_append, not_or] at hckpre
    obtain ⟨T, hT, hkT⟩ := h.todo c k hck hckpre.1
    refine ⟨T, hT, hkT, fun hc => ?_⟩
    subst hc
    rw [hS, Option.some.injEq] at hT
    subst hT
    refine (SortedMap.mem_keys_erase hSs).mpr ⟨hkT, fun hkx => hckpre.2 ?_⟩
    rw [hkx]
    exact List.mem_singleton_self _
  by_cases hE : S' = []
  · -- the borrower's last edge has gone: it leaves the parent's map, into `cleanup_ids`
    have hbb : SortedMap.Sorted (SortedMap.insert x.1 S' P.borrowedBy) := SortedMap.sorted_insert h.sorted.borrowedBy
    refine ⟨({ P with borrowedBy := SortedMap.erase x.1 (SortedMap.insert x.1 S' P.borrowedBy) },
      SortedMap.insert x.1 () C), ?_, ?_⟩
    · simp [removeFactoredEdge, hS, hkS, ← hS', hE]
    have hkeys : ∀ c, c ∈ (SortedMap.erase x.1 (SortedMap.insert x.1 S' P.borrowedBy)).map Prod.fst ↔
        c ∈ P.borrowedBy.map Prod.fst ∧ c ≠ x.1 := by
      intro c
      rw [SortedMap.mem_keys_erase hbb, SortedMap.mem_keys_insert]
      constructor
      · rintro ⟨hc | hc, hne⟩
        exacts [absurd hc hne, ⟨hc, hne⟩]
      · exact fun hc => ⟨Or.inr hc.1, hc.2⟩
    refine ⟨h.borrowsFrom, (h.sorted.insertEdges (SortedMap.sorted_erase hSs)).eraseEdges,
      SortedMap.sorted_insert h.sortedCleanup, fun c hc => h.sub c ((hkeys c).mp hc).1, fun c => ?_, ?_⟩
    · rw [SortedMap.mem_keys_insert, h.cleanup, hkeys]
      by_cases hc : c = x.1
      · subst hc
        simp [h.sub _ hxP]
      · simp [hc]
    · intro c k hck hckpre
      obtain ⟨T, hT, hkT, hcx⟩ := hrest c k hck hckpre
      have hc : c ≠ x.1 := fun hc => by
        have hk' := hcx hc
        rw [hE] at hk'
        exact List.not_mem_nil hk'
      refine ⟨T, ?_, hkT⟩
      rw [SortedMap.get?_erase hbb, if_neg hc, SortedMap.get?_insert_ne hc, hT]
  · refine ⟨({ P with borrowedBy := SortedMap.insert x.1 S' P.borrowedBy }, C), ?_, ?_⟩
    · simp [removeFactoredEdge, hS, hkS, ← hS', hE]
    have hkeys : ∀ c, c ∈ (SortedMap.insert x.1 S' P.borrowedBy).map Prod.fst ↔ c ∈ P.borrowedBy.map Prod.fst := by
      intro c
      rw [SortedMap.mem_keys_insert]
      constructor
      · rintro (rfl | hc)
        exacts [hxP, hc]
      · exact Or.inr
    refine ⟨h.borrowsFrom, h.sorted.insertEdges (SortedMap.sorted_erase hSs), h.sortedCleanup,
      fun c hc => h.sub c ((hkeys c).mp hc), fun c => by rw [h.cleanup, hkeys], ?_⟩
    intro c k hck hckpre
    obtain ⟨T, hT, hkT, hcx⟩ := hrest c k hck hckpre
    by_cases hc : c = x.1
    · subst hc
      exact ⟨S', SortedMap.get?_insert_self, hcx rfl⟩
    · exact ⟨T, by rw [SortedMap.get?_insert_ne hc, hT], hkT⟩

end Step

/-- What the first loop has left between the parent and each borrower after moving the edges
`pre`: the parent's strengths and paths there, but those of `pre`. -/
def KeysLeft (parent : Ref Loc Lbl) (pre : List (RefID × BorrowEdge Loc Lbl)) (P : Ref Loc Lbl) : Prop :=
  ∀ c k, k ∈ ((SortedMap.get? c P.borrowedBy).getD []).map Prod.fst ↔
    k ∈ ((SortedMap.get? c parent.borrowedBy).getD []).map Prod.fst ∧ (c, k) ∉ pre.map moveKey

section Left

variable {pre : List (RefID × BorrowEdge Loc Lbl)} {P P' : Ref Loc Lbl} {C C' : List (RefID × Unit)}
  {x : RefID × BorrowEdge Loc Lbl}

/-- A pass of the first loop takes its edge out of its borrower's set, and changes no other set;
a set left empty goes with its borrower, which reads the same. -/
theorem removeFactoredEdge_edges (hr : RefSorted P) (h : removeFactoredEdge (P, C) x = some (P', C'))
    (c : RefID) : (SortedMap.get? c P'.borrowedBy).getD [] =
      if c = x.1 then SortedMap.erase x.2.key ((SortedMap.get? x.1 P.borrowedBy).getD [])
      else (SortedMap.get? c P.borrowedBy).getD [] := by
  simp only [removeFactoredEdge, Option.bind_eq_bind] at h
  obtain ⟨S, hS, h⟩ := Option.bind_eq_some_iff.mp h
  have hbb : SortedMap.Sorted (SortedMap.insert x.1 (SortedMap.erase x.2.key S) P.borrowedBy) :=
    SortedMap.sorted_insert hr.borrowedBy
  split at h
  · cases h
  split at h
  · rename_i hE
    split at h
    · cases h
      rw [SortedMap.get?_erase hbb, SortedMap.get?_insert, hS]
      split_ifs
      · exact (List.isEmpty_iff.mp hE).symm
      · rfl
    · cases h
  · cases h
    rw [SortedMap.get?_insert, hS]
    split_ifs <;> rfl

theorem KeysLeft.step (hK : KeysLeft parent pre P) (hr : RefSorted P) (h : removeFactoredEdge (P, C) x = some (P', C')) :
    KeysLeft parent (pre ++ [x]) P' := by
  intro c k
  rw [removeFactoredEdge_edges hr h, List.map_append, List.mem_append, List.map_singleton, List.mem_singleton, not_or]
  split_ifs with hc
  · subst hc
    rw [SortedMap.mem_keys_erase (hr.sorted_edges x.1), hK]
    simp only [moveKey, Prod.mk.injEq, true_and]
    tauto
  · rw [hK]
    simp [moveKey, hc]

end Left

/-- **The first loop** does not panic; at its end the borrowers the parent has lost are those in
`cleanup_ids`, and it has kept of the parent's edges those that do not move. -/
theorem removeFactored_spec (path : List Lbl) (hr : RefSorted parent) :
    ∃ P C, removeFactored parent (needsFactored parent path) = some (P, C) ∧
      RemoveInv parent path (needsFactored parent path) (P, C) ∧ KeysLeft parent (needsFactored parent path) P := by
  have hnodup := nodup_moveKeys path hr
  obtain ⟨⟨P, C⟩, hloop, hinv, hkeys⟩ := foldlM_invariant (f := removeFactoredEdge) (l := needsFactored parent path)
    (fun pre acc => RemoveInv parent path pre acc ∧ KeysLeft parent pre acc.1) (fun pre x suf acc hl hacc => by
      obtain ⟨P, C⟩ := acc
      -- the edge at hand was not moved before: the edges to move do not repeat
      have hxpre : moveKey x ∉ pre.map moveKey := not_mem_map_prefix hl hnodup
      have hx : moveKey x ∈ (needsFactored parent path).map moveKey := by
        rw [hl]
        exact List.mem_map_of_mem (List.mem_append_right _ List.mem_cons_self)
      obtain ⟨⟨P', C'⟩, hf, hR'⟩ := hacc.1.step hx hxpre
      exact ⟨(P', C'), hf, hR', hacc.2.step hacc.1.sorted hf⟩) (parent, []) ⟨removeInv_nil hr, fun c k => by simp⟩
  exact ⟨P, C, hloop, hinv, hkeys⟩

/-- An edge to move, by its borrower and its strength and path, is an edge of the parent whose
path extends `path`. -/
theorem mem_moveKeys_iff (hr : RefSorted parent) {c : RefID} {k : EdgeKey Lbl} :
    (c, k) ∈ (needsFactored parent path).map moveKey ↔
      k ∈ ((SortedMap.get? c parent.borrowedBy).getD []).map Prod.fst ∧ path <+: k.path := by
  constructor
  · intro hck
    obtain ⟨S, hS, hk⟩ := exists_of_mem_moveKeys hr hck
    obtain ⟨y, hy, hyk⟩ := List.mem_map.mp hck
    simp only [moveKey, Prod.mk.injEq] at hyk
    obtain ⟨rfl, rfl⟩ := hyk
    exact ⟨by rw [hS]; exact hk, Paths.leq_iff_isPrefix.mp (of_mem_needsFactored hy).2⟩
  · rintro ⟨hk, hpre⟩
    cases hS : SortedMap.get? c parent.borrowedBy with
    | none => simp [hS] at hk
    | some S =>
      rw [hS, Option.getD_some] at hk
      obtain ⟨e, he, rfl⟩ := List.mem_map.mp hk
      exact List.mem_map.mpr ⟨(c, BorrowEdge.ofEntry e),
        mem_needsFactored.mpr ⟨S, SortedMap.mem_of_get? hS, e, he, Paths.leq_iff_isPrefix.mpr hpre, rfl⟩, rfl⟩

/-! ## The second loop -/

/-- What the second loop of `factor` keeps after the borrowers `pre` of `cleanup_ids`: the
references and their borrowers as after the first loop (`g₁`), and what each reference borrows
from as in `g`, but for the parent, gone from the borrowers done. -/
structure CleanupInv (g g₁ : BorrowGraph Loc Lbl) (parentId : RefID) (pre : List (RefID × Unit))
    (G : BorrowGraph Loc Lbl) : Prop where
  wellFormed : G.WellFormed
  ids_iff : ∀ x, x ∈ G.ids ↔ x ∈ g.ids
  out_eq : ∀ x, G.out x = g₁.out x
  inn_iff : ∀ y x, x ∈ G.inn y ↔ x ∈ g.inn y ∧ ¬(y ∈ pre.map Prod.fst ∧ x = parentId)

section Cleanup

variable {g₁ G : BorrowGraph Loc Lbl} {parentId c : RefID} {pre : List (RefID × Unit)}

/-- A pass of the second loop at a borrower of the parent not yet done does not panic, and
keeps `CleanupInv`. -/
theorem CleanupInv.step (h : CleanupInv g g₁ parentId pre G) (hc : c ∈ g.ids) (hpc : parentId ∈ g.inn c)
    (hcpre : c ∉ pre.map Prod.fst) :
    ∃ G', cleanupBorrower parentId G (c, ()) = some G' ∧ CleanupInv g g₁ parentId (pre ++ [(c, ())]) G' := by
  obtain ⟨child, hchild⟩ := mem_ids_iff.mp ((h.ids_iff c).mpr hc)
  have hsorted : RefSorted child := h.wellFormed.refSorted hchild
  have hpin : parentId ∈ child.borrowsFrom.map Prod.fst := by
    rw [← inn_of_get? hchild, h.inn_iff]
    exact ⟨hpc, fun hh => hcpre hh.1⟩
  have hget : SortedMap.get? parentId child.borrowsFrom ≠ none :=
    Option.ne_none_iff_isSome.mpr (SortedMap.get?_isSome_iff.mpr hpin)
  refine ⟨⟨SortedMap.insert c { child with borrowsFrom := SortedMap.erase parentId child.borrowsFrom } G.refs⟩,
    by simp [cleanupBorrower, hchild, hget], h.wellFormed.insert _ hsorted.eraseBorrowsFrom, fun x => ?_, fun x => ?_,
    fun y x => ?_⟩
  · rw [mem_ids_insert_of_mem _ _ ((h.ids_iff c).mpr hc), h.ids_iff]
  · rw [out_insert, ← h.out_eq]
    split_ifs with hx
    · rw [hx, out_of_get? hchild]
    · rfl
  · rw [inn_insert]
    split_ifs with hy
    · -- the borrower done now: the parent leaves its `borrows_from`
      subst hy
      rw [SortedMap.mem_keys_erase hsorted.borrowsFrom, ← inn_of_get? hchild, h.inn_iff]
      simp only [List.map_append, List.mem_append, List.map_cons, List.map_nil, List.mem_singleton, or_true,
        true_and, hcpre, false_and, not_false_eq_true, and_true]
    · rw [h.inn_iff]
      simp [hy]

end Cleanup

omit [LinearOrder Lbl] in
/-- A pass of the second loop touches only a `borrows_from`: it changes no edge. -/
theorem cleanupBorrower_edges {G G' : BorrowGraph Loc Lbl} {parentId : RefID} {y : RefID × Unit}
    (h : cleanupBorrower parentId G y = some G') (p c : RefID) : G'.edges p c = G.edges p c := by
  simp only [cleanupBorrower, Option.bind_eq_bind] at h
  obtain ⟨child, hchild, h⟩ := Option.bind_eq_some_iff.mp h
  split at h
  · cases h
  · cases h
    rw [edges_insert]
    split_ifs with hp
    · rw [hp, edges_of_get? hchild]
    · rfl

/-- Where the two loops leave it, the graph keeps the invariant: the parent has lost exactly
the borrowers in `cleanup_ids`, and they no longer borrow from it. -/
theorem inv_cleanup (h : g.Inv) {parentId : RefID} (hparent : SortedMap.get? parentId g.refs = some parent)
    {P : Ref Loc Lbl} {C : List (RefID × Unit)} (hR : RemoveInv parent path (needsFactored parent path) (P, C))
    {G : BorrowGraph Loc Lbl} (hG : CleanupInv g ⟨SortedMap.insert parentId P g.refs⟩ parentId C G) : G.Inv := by
  -- the parent's borrowers now, and the rest as before
  have hout : ∀ x y, y ∈ G.out x ↔ if x = parentId then y ∈ g.out parentId ∧ y ∉ C.map Prod.fst else y ∈ g.out x := by
    intro x y
    rw [hG.out_eq, out_insert]
    split_ifs with hx
    · rw [out_of_get? hparent]
      constructor
      · intro hy
        exact ⟨hR.sub y hy, fun hyC => ((hR.cleanup y).mp hyC).2 hy⟩
      · rintro ⟨hy, hyC⟩
        by_contra hyP
        exact hyC ((hR.cleanup y).mpr ⟨hy, hyP⟩)
    · rfl
  refine ⟨hG.wellFormed, fun x y => ?_, fun x hx => ?_⟩
  · rw [hout, hG.inn_iff]
    split_ifs with hx
    · subst hx
      rw [h.mirror]
      tauto
    · rw [h.mirror]
      tauto
  · rw [hout] at hx
    split_ifs at hx with hxp
    · subst hxp
      exact h.noSelf x hx.1
    · exact h.noSelf x hx

/-! ## `factor` -/

theorem Paths.factor_of_leq {lhs rhs : List Lbl} (h : Paths.leq lhs rhs = true) :
    Paths.factor lhs rhs = some (rhs.take lhs.length, rhs.drop lhs.length) := by
  simp [Paths.factor, h]

/-- The strength and path a moved edge has from the intermediate reference: what its path has
past `path`. -/
def factoredKey (path : List Lbl) (y : RefID × BorrowEdge Loc Lbl) : EdgeKey Lbl :=
  ⟨y.2.strong, y.2.path.drop path.length⟩

/-- The moved edges, by borrower and strength and path from the intermediate reference: the
parent's edges whose path extends `path`, with the rest of their path. -/
theorem exists_needsFactored_iff (hr : RefSorted parent) {z : RefID} {k : EdgeKey Lbl} :
    (∃ y ∈ needsFactored parent path, z = y.1 ∧ k = factoredKey path y) ↔
      ∃ k' ∈ ((SortedMap.get? z parent.borrowedBy).getD []).map Prod.fst, path <+: k'.path ∧
        k = ⟨k'.strong, k'.path.drop path.length⟩ := by
  constructor
  · rintro ⟨y, hy, rfl, rfl⟩
    obtain ⟨hk, hpre⟩ := (mem_moveKeys_iff hr).mp (List.mem_map_of_mem (f := moveKey) hy)
    exact ⟨y.2.key, hk, hpre, rfl⟩
  · rintro ⟨k', hk', hpre, rfl⟩
    obtain ⟨y, hy, hyk⟩ := List.mem_map.mp ((mem_moveKeys_iff hr).mpr ⟨hk', hpre⟩)
    simp only [moveKey, Prod.mk.injEq] at hyk
    obtain ⟨rfl, rfl⟩ := hyk
    exact ⟨y, hy, rfl, rfl⟩

/-- **The third loop** adds each moved edge from the intermediate reference, with the rest of its
path, to a graph of the invariant; it does not panic, and adds nothing else. -/
theorem addFactored_spec {G : BorrowGraph Loc Lbl} (hG : G.Inv) {inter : RefID} (hi : inter ∈ G.ids)
    {needs : List (RefID × BorrowEdge Loc Lbl)}
    (hneeds : ∀ y ∈ needs, y.1 ∈ G.ids ∧ inter ≠ y.1 ∧ Paths.leq path y.2.path = true) :
    ∃ G', needs.foldlM (addFactoredEdge path inter) G = some G' ∧ G'.Inv ∧ (∀ x, x ∈ G'.ids ↔ x ∈ G.ids) ∧
      ∀ x z k, k ∈ (G'.edges x z).map Prod.fst ↔
        k ∈ (G.edges x z).map Prod.fst ∨ (x = inter ∧ ∃ y ∈ needs, z = y.1 ∧ k = factoredKey path y) := by
  -- the state keeps the invariant and the references, and has only `G`'s edges and moved ones
  obtain ⟨G', hloop, ⟨⟨hinv, hids⟩, hsub⟩, hgrow, hnew⟩ := foldlM_grow (f := addFactoredEdge path inter) (l := needs)
    (fun G' => (G'.Inv ∧ ∀ x, x ∈ G'.ids ↔ x ∈ G.ids) ∧ ∀ x z k, k ∈ (G'.edges x z).map Prod.fst →
      k ∈ (G.edges x z).map Prod.fst ∨ (x = inter ∧ ∃ y ∈ needs, z = y.1 ∧ k = factoredKey path y))
    EdgesGrow (fun y G' => factoredKey path y ∈ (G'.edges inter y.1).map Prod.fst)
    (fun _ _ _ _ h => h) (fun _ _ _ => EdgesGrow.trans) (fun _ _ _ hP hGG' => hGG'.mem_keys hP)
    (fun y hy G₁ hG₁ => by
      obtain ⟨hy₁, hiy, hleq⟩ := hneeds y hy
      obtain ⟨G₂, hG₂, hinv₂, hadd⟩ := hG₁.1.1.addEdge hiy ((hG₁.1.2 inter).mpr hi) ((hG₁.1.2 y.1).mpr hy₁)
        ⟨y.2.strong, y.2.path.drop path.length, y.2.loc⟩
      refine ⟨G₂, ?_, ⟨⟨hinv₂, fun x => (hadd.ids_iff x).trans (hG₁.1.2 x)⟩, fun x z k hk => ?_⟩,
        hadd.edgesGrow, hadd.mem_keys⟩
      · simp [addFactoredEdge, addPath, Paths.factor_of_leq hleq, hG₂]
      · rcases hadd.mem_keys_iff.mp hk with hk | ⟨rfl, rfl, rfl⟩
        · exact hG₁.2 x z k hk
        · exact Or.inr ⟨rfl, y, hy, rfl, rfl⟩)
    G ⟨⟨hG, fun _ => Iff.rfl⟩, fun _ _ _ hk => Or.inl hk⟩
  refine ⟨G', hloop, hinv, hids, fun x z k => ⟨hsub x z k, ?_⟩⟩
  rintro (hk | ⟨rfl, y, hy, rfl, rfl⟩)
  exacts [hgrow.mem_keys hk, hnew y hy]

/-- **A strong borrow.** `factor` from a reference of a graph of the invariant to another that
borrows from nothing does not panic; it keeps the invariant and the references, and its edges
are the old ones but those of the parent whose path extends `path`, which now go from the
intermediate reference with the rest of their path, and a strong edge from the parent to the
intermediate reference at `path`. -/
theorem factor_spec (h : g.Inv) {parentId inter : RefID} (hp : parentId ∈ g.ids) (hi : inter ∈ g.ids)
    (hpi : parentId ≠ inter) (hfresh : g.inn inter = []) (loc : Loc) (path : List Lbl) :
    ∃ g', g.factor parentId loc path inter = some g' ∧ g'.Inv ∧ (∀ x, x ∈ g'.ids ↔ x ∈ g.ids) ∧
      ∀ x z k, k ∈ (g'.edges x z).map Prod.fst ↔
        (k ∈ (g.edges x z).map Prod.fst ∧ ¬(x = parentId ∧ path <+: k.path)) ∨
        (x = inter ∧ ∃ k' ∈ (g.edges parentId z).map Prod.fst, path <+: k'.path ∧
          k = ⟨k'.strong, k'.path.drop path.length⟩) ∨
        (x = parentId ∧ z = inter ∧ k = ⟨true, path⟩) := by
  obtain ⟨parent, hparent⟩ := mem_ids_iff.mp hp
  have hr : RefSorted parent := h.refSorted hparent
  obtain ⟨P, C, hrem, hR, hleft⟩ := removeFactored_spec path hr
  -- the borrowers the parent lost are references that borrowed from it
  have hC : ∀ c ∈ C.map Prod.fst, c ∈ g.ids ∧ parentId ∈ g.inn c := by
    intro c hc
    have hcp : c ∈ g.out parentId := by
      rw [out_of_get? hparent]
      exact ((hR.cleanup c).mp hc).1
    exact ⟨h.mem_ids_of_mem_out hcp, (h.mirror _ _).mp hcp⟩
  set G₁ : BorrowGraph Loc Lbl := ⟨SortedMap.insert parentId P g.refs⟩ with hG₁
  have hnil : CleanupInv g G₁ parentId [] G₁ := by
    refine ⟨h.toWellFormed.insert _ hR.sorted, fun x => ?_, fun x => rfl, fun y x => ?_⟩
    · exact mem_ids_insert_of_mem _ _ hp
    · rw [inn_insert]
      split_ifs with hy
      · rw [hy, hR.borrowsFrom, inn_of_get? hparent]
        simp
      · simp
  -- the second loop, which changes no edge
  obtain ⟨G₂, hloop₂, hG₂⟩ := foldlM_invariant (f := cleanupBorrower parentId) (l := C)
    (CleanupInv g G₁ parentId) (fun pre x suf G hl hG => by
      obtain ⟨c, ⟨⟩⟩ := x
      have hcC : c ∈ C.map Prod.fst := by
        rw [hl]
        simp
      -- `cleanup_ids` is a set: each borrower once
      have hcpre : c ∉ pre.map Prod.fst := not_mem_map_prefix hl hR.sortedCleanup.nodup_keys
      exact hG.step (hC c hcC).1 (hC c hcC).2 hcpre) _ hnil
  have hedges₂ : ∀ x z, G₂.edges x z = G₁.edges x z :=
    (foldlM_grow_of_eq_some (l := C) (fun _ => True) (fun G G' => ∀ x z, G'.edges x z = G.edges x z)
      (fun _ _ => True) (fun _ _ _ => rfl)
      (fun _ _ _ h₁ h₂ x z => by rw [h₂ x z, h₁ x z])
      (fun _ _ _ _ _ => trivial) (fun _ _ _ _ _ hG' => ⟨trivial, cleanupBorrower_edges hG', trivial⟩)
      G₁ G₂ trivial hloop₂).2.1
  have hinv₂ : G₂.Inv := inv_cleanup h hparent hR hG₂
  -- the third loop: each moved edge from the intermediate reference, which is none of the borrowers
  have hneeds : ∀ y ∈ needsFactored parent path, y.1 ∈ G₂.ids ∧ inter ≠ y.1 ∧ Paths.leq path y.2.path = true := by
    intro y hy
    obtain ⟨hy₁, hleq⟩ := of_mem_needsFactored hy
    have hyout : y.1 ∈ g.out parentId := by
      rw [out_of_get? hparent]
      exact hy₁
    refine ⟨(hG₂.ids_iff _).mpr (h.mem_ids_of_mem_out hyout), fun hiy => ?_, hleq⟩
    have hpin := (h.mirror _ _).mp hyout
    rw [← hiy, hfresh] at hpin
    exact List.not_mem_nil hpin
  obtain ⟨G₃, hloop₃, hinv₃, hids₃, hkeys₃⟩ := addFactored_spec hinv₂ ((hG₂.ids_iff inter).mpr hi) hneeds
  -- and the strong edge from the parent to the intermediate reference
  have hids₃' : ∀ x, x ∈ G₃.ids ↔ x ∈ g.ids := fun x => (hids₃ x).trans (hG₂.ids_iff x)
  obtain ⟨G₄, hG₄, hinv₄, hadd⟩ := hinv₃.addEdge hpi ((hids₃' _).mpr hp) ((hids₃' _).mpr hi) ⟨true, path, loc⟩
  refine ⟨G₄, ?_, hinv₄, fun x => (hadd.ids_iff x).trans (hids₃' x), fun x z k => ?_⟩
  · simp [BorrowGraph.factor, hparent, hrem, ← hG₁, hloop₂, hloop₃, addPath, hG₄]
  -- the parent's edges after the first loop: those that do not move
  have hkeys₁ : ∀ x z k, k ∈ (G₁.edges x z).map Prod.fst ↔
      k ∈ (g.edges x z).map Prod.fst ∧ ¬(x = parentId ∧ path <+: k.path) := by
    intro x z k
    rw [hG₁, edges_insert]
    split_ifs with hx
    · subst hx
      rw [hleft, mem_moveKeys_iff hr, edges_of_get? hparent]
      tauto
    · simp [hx]
  rw [hadd.mem_keys_iff, hkeys₃, hedges₂, hkeys₁, exists_needsFactored_iff hr, ← edges_of_get? hparent, or_assoc]
  rfl

theorem Inv.factor (h : g.Inv) {parentId inter : RefID} (hp : parentId ∈ g.ids) (hi : inter ∈ g.ids)
    (hpi : parentId ≠ inter) (hfresh : g.inn inter = []) (loc : Loc) (path : List Lbl) :
    ∃ g', g.factor parentId loc path inter = some g' ∧ g'.Inv ∧ ∀ x, x ∈ g'.ids ↔ x ∈ g.ids := by
  obtain ⟨g', hg', hinv, hids, -⟩ := factor_spec h hp hi hpi hfresh loc path
  exact ⟨g', hg', hinv, hids⟩

end BorrowGraph

end Dijets.Move
