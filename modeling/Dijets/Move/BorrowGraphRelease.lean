import Dijets.Move.BorrowGraphInvariant
import Dijets.Lib.OptionLoop

/-!
# Releasing a reference

`release` takes a reference out of the map, then splices it out: each of its parents loses its
edges to it, each of them joined with each edge out of it (`releaseParent`, through
`splice_out_intermediate`, which skips a parent that is also a child), and last each child
forgets it (`releaseChild`).

While it runs, the graph is `Releasing`: the mirror holds away from the released id, whose
remaining traces are exactly the parents not yet done (in the `borrowed_by` maps) and the
children not yet done (in the `borrows_from` sets); the edges between two other references are
the old ones and splices, every splice of the parents done and none other. A splice adds an edge
between two other references and keeps that; each loop takes one kind of trace away. So
`release` of a reference of a graph of the invariant does not panic, keeps the invariant
(`Inv.release`), and leaves between two references their old edges and the splices through the
released one (`release_spec`).
-/

set_option autoImplicit false

namespace Dijets.Move

open Dijets.Lib Dijets.Lib.OptionLoop

variable {Loc Lbl : Type} [LinearOrder Lbl]

namespace BorrowGraph

variable {g G G' : BorrowGraph Loc Lbl} {id p c : RefID}

omit [LinearOrder Lbl] in
/-- The strength and path of the edge `splice_out_intermediate` adds for a parent edge `pe` into
the released reference and a child edge `ce` out of it. -/
def spliceKey (pe ce : EdgeKey Lbl × Loc) : EdgeKey Lbl :=
  ⟨pe.1.strong && ce.1.strong, if pe.1.strong then Paths.append pe.1.path ce.1.path else pe.1.path⟩

/-- The graph in the middle of releasing `id` from `g`: `id` is gone from the map, the mirror
holds between the other references, `id` is still a borrower of the references `lenders`, which
keep their edges to it, and still lends to the references `borrowers`. Between two other
references stand the edges of `g`, the splices through `id` of the parents `done`, and nothing
else. -/
structure Releasing (g : BorrowGraph Loc Lbl) (id : RefID) (lenders borrowers done : RefID → Prop)
    (G : BorrowGraph Loc Lbl) : Prop where
  wellFormed : G.WellFormed
  ids_iff : ∀ x, x ∈ G.ids ↔ x ∈ g.ids ∧ x ≠ id
  mirror : ∀ x y, x ≠ id → y ≠ id → (y ∈ G.out x ↔ x ∈ G.inn y)
  noSelf : ∀ x, x ∉ G.out x
  out_id : ∀ x, id ∈ G.out x ↔ lenders x
  inn_id : ∀ y, id ∈ G.inn y ↔ borrowers y
  edges_id : ∀ x, lenders x → G.edges x id = g.edges x id
  keep : ∀ x y k, k ∈ (g.edges x y).map Prod.fst → x ≠ id → y ≠ id → k ∈ (G.edges x y).map Prod.fst
  spliced : ∀ x y pe ce, done x → x ≠ y → pe ∈ g.edges x id → ce ∈ g.edges id y →
    spliceKey pe ce ∈ (G.edges x y).map Prod.fst
  upper : ∀ x y k, k ∈ (G.edges x y).map Prod.fst → y ≠ id → k ∈ (g.edges x y).map Prod.fst ∨
    x ≠ y ∧ ∃ pe ∈ g.edges x id, ∃ ce ∈ g.edges id y, k = spliceKey pe ce

section Splice

variable {L B D : RefID → Prop}

/-- A splice between two other references keeps a graph releasing `id`. -/
theorem Releasing.addsEdge (h : Releasing g id L B D G) {e : BorrowEdge Loc Lbl} (hadd : AddsEdge G G' p e c)
    (hp : p ≠ id) (hc : c ≠ id) (hpc : p ≠ c)
    (hsplice : ∃ pe ∈ g.edges p id, ∃ ce ∈ g.edges id c, e.key = spliceKey pe ce) : Releasing g id L B D G' := by
  refine ⟨hadd.wellFormed, fun x => (hadd.ids_iff x).trans (h.ids_iff x), fun x y hx hy => ?_, fun x hx => ?_,
    fun x => ?_, fun y => ?_, fun x hx => ?_, fun x y k hk hx hy => hadd.edgesGrow.mem_keys (h.keep x y k hk hx hy),
    fun x y pe ce hx hxy hpe hce => hadd.edgesGrow.mem_keys (h.spliced x y pe ce hx hxy hpe hce),
    fun x y k hk hy => ?_⟩
  · rw [hadd.out_iff, hadd.inn_iff, h.mirror x y hx hy]
    constructor
    · rintro (hxy | ⟨rfl, rfl⟩)
      exacts [Or.inl hxy, Or.inr ⟨rfl, rfl⟩]
    · rintro (hxy | ⟨rfl, rfl⟩)
      exacts [Or.inl hxy, Or.inr ⟨rfl, rfl⟩]
  · rcases (hadd.out_iff x x).mp hx with hx | ⟨rfl, rfl⟩
    · exact h.noSelf x hx
    · exact hpc rfl
  · rw [hadd.out_iff, h.out_id]
    exact or_iff_left fun hh => hc hh.2.symm
  · rw [hadd.inn_iff, h.inn_id]
    exact or_iff_left fun hh => hp hh.2.symm
  · rw [hadd.edges_eq, if_neg fun hh => hc hh.2.symm, h.edges_id x hx]
  · rcases hadd.mem_keys_iff.mp hk with hk | ⟨rfl, rfl, rfl⟩
    · exact h.upper x y k hk hy
    · exact Or.inr ⟨hpc, hsplice⟩

/-- `splice_out_intermediate` of a parent edge into `id` and a child edge out of it, between two
references of a graph releasing `id`, does not panic: it keeps the graph releasing `id` and every
edge, and gives the parent the splice unless the parent is the child. -/
theorem Releasing.splice (h : Releasing g id L B D G) (hp : p ∈ G.ids) (hc : c ∈ G.ids)
    {pe ce : EdgeKey Lbl × Loc} (hpe : pe ∈ g.edges p id) (hce : ce ∈ g.edges id c) :
    ∃ G', G.spliceOutIntermediate p (BorrowEdge.ofEntry pe) c (BorrowEdge.ofEntry ce) = some G' ∧
      Releasing g id L B D G' ∧ EdgesGrow G G' ∧ (p ≠ c → spliceKey pe ce ∈ (G'.edges p c).map Prod.fst) := by
  by_cases hpc : p = c
  · exact ⟨G, by simp [spliceOutIntermediate, hpc], h, fun _ _ _ he => he, fun hne => absurd hpc hne⟩
  · obtain ⟨G', hG', hadd⟩ := addEdge_spec h.wellFormed hpc hp hc
      ⟨(BorrowEdge.ofEntry pe).strong && (BorrowEdge.ofEntry ce).strong,
        if (BorrowEdge.ofEntry pe).strong then Paths.append (BorrowEdge.ofEntry pe).path (BorrowEdge.ofEntry ce).path
        else (BorrowEdge.ofEntry pe).path, (BorrowEdge.ofEntry ce).loc⟩
    refine ⟨G', ?_, ?_, hadd.edgesGrow, fun _ => hadd.mem_keys⟩
    · simp only [spliceOutIntermediate, if_neg hpc]
      exact hG'
    · exact h.addsEdge hadd ((h.ids_iff p).mp hp).2 ((h.ids_iff c).mp hc).2 hpc ⟨pe, hpe, ce, hce, rfl⟩

/-- The splices of one parent edge into `id` with every edge out of `id`: they keep the graph
releasing `id` and every edge, and give the parent the splice with each edge to another child. -/
theorem Releasing.spliceParentEdge (h : Releasing g id L B D G) (hp : p ∈ G.ids) {pe : EdgeKey Lbl × Loc}
    (hpe : pe ∈ g.edges p id) {bb : BorrowEdges Loc Lbl} (hbb : ∀ y ∈ bb, y.1 ∈ G.ids ∧ g.edges id y.1 = y.2) :
    ∃ G', G.spliceParentEdge p (BorrowEdge.ofEntry pe) bb = some G' ∧ Releasing g id L B D G' ∧
      EdgesGrow G G' ∧ ∀ y ∈ bb, ∀ ce ∈ y.2, p ≠ y.1 → spliceKey pe ce ∈ (G'.edges p y.1).map Prod.fst := by
  -- the references stay those of `g` but `id`, so both loops keep `p` and every child present
  have hids : ∀ G₁ : BorrowGraph Loc Lbl, Releasing g id L B D G₁ → ∀ x, x ∈ G₁.ids ↔ x ∈ G.ids := by
    intro G₁ h₁ x
    rw [h₁.ids_iff, h.ids_iff]
  exact foldlM_grow (l := bb) (Releasing g id L B D) EdgesGrow
    (fun y G₁ => ∀ ce ∈ y.2, p ≠ y.1 → spliceKey pe ce ∈ (G₁.edges p y.1).map Prod.fst)
    (fun _ _ _ _ he => he) (fun _ _ _ => EdgesGrow.trans) (fun y G₁ G₂ hP hG ce hce hpy => hG.mem_keys (hP ce hce hpy))
    (fun y hy G₁ h₁ =>
      foldlM_grow (l := y.2) (Releasing g id L B D) EdgesGrow
        (fun ce G₂ => p ≠ y.1 → spliceKey pe ce ∈ (G₂.edges p y.1).map Prod.fst)
        (fun _ _ _ _ he => he) (fun _ _ _ => EdgesGrow.trans) (fun ce G₂ G₃ hP hG hpy => hG.mem_keys (hP hpy))
        (fun ce hce G₂ h₂ => h₂.splice ((hids G₂ h₂ p).mpr hp) ((hids G₂ h₂ y.1).mpr (hbb y hy).1) hpe
          (by rw [(hbb y hy).2]; exact hce))
        G₁ h₁)
    G h

end Splice

/-! ## The first loop -/

section Parents

variable {r : Ref Loc Lbl}

/-- A pass of the first loop at a parent not yet done does not panic: the parent is a
reference, still with its edges of `g` to `id`. Taking those away and splicing each of them with
each edge out of `id` keeps the graph releasing `id`, with the parent done. -/
theorem Releasing.releaseParent (hg : g.Inv) (hr : SortedMap.get? id g.refs = some r) {pre : List (RefID × Unit)}
    (h : Releasing g id (fun x => x ∈ g.inn id ∧ x ∉ pre.map Prod.fst) (· ∈ g.out id) (· ∈ pre.map Prod.fst) G)
    (hp : p ∈ g.inn id) (hppre : p ∉ pre.map Prod.fst) :
    ∃ G', releaseParent id r G (p, ()) = some G' ∧
      Releasing g id (fun x => x ∈ g.inn id ∧ x ∉ (pre ++ [(p, ())]).map Prod.fst) (· ∈ g.out id)
        (· ∈ (pre ++ [(p, ())]).map Prod.fst) G' := by
  have hpG : p ∈ G.ids := (h.ids_iff p).mpr ⟨hg.mem_ids_of_mem_inn hp, hg.ne_of_mem_inn hp⟩
  obtain ⟨parent, hparent⟩ := mem_ids_iff.mp hpG
  have hsorted : RefSorted parent := h.wellFormed.refSorted hparent
  have hid : id ∈ parent.borrowedBy.map Prod.fst := by
    rw [← out_of_get? hparent, h.out_id]
    exact ⟨hp, hppre⟩
  obtain ⟨S, hS⟩ := Option.isSome_iff_exists.mp (SortedMap.get?_isSome_iff.mpr hid)
  have hSg : S = g.edges p id := by
    rw [← h.edges_id p ⟨hp, hppre⟩, edges_of_get? hparent, hS, Option.getD_some]
  set G₁ : BorrowGraph Loc Lbl :=
    ⟨SortedMap.insert p { parent with borrowedBy := SortedMap.erase id parent.borrowedBy } G.refs⟩ with hG₁
  have hedges₁ : ∀ x y, G₁.edges x y = if x = p ∧ y = id then [] else G.edges x y := by
    intro x y
    rw [hG₁, edges_insert]
    by_cases hx : x = p
    · subst hx
      by_cases hy : y = id
      · subst hy
        simp [SortedMap.get?_erase_self hsorted.borrowedBy]
      · simp [hy, SortedMap.get?_erase_ne hy, edges_of_get? hparent]
    · simp [hx]
  -- without its edges to `id` the parent no longer lends to it
  have hrel₁ : Releasing g id (fun x => x ∈ g.inn id ∧ x ∉ (pre ++ [(p, ())]).map Prod.fst) (· ∈ g.out id)
      (· ∈ pre.map Prod.fst) G₁ := by
    have hout : ∀ x y, y ∈ G₁.out x ↔ y ∈ G.out x ∧ ¬(x = p ∧ y = id) := by
      intro x y
      rw [hG₁, out_insert]
      split_ifs with hx
      · subst hx
        rw [SortedMap.mem_keys_erase hsorted.borrowedBy, out_of_get? hparent]
        simp
      · simp [hx]
    have hinn : ∀ y, G₁.inn y = G.inn y := by
      intro y
      rw [hG₁, inn_insert]
      split_ifs with hy
      · rw [hy, inn_of_get? hparent]
      · rfl
    refine ⟨h.wellFormed.insert _ hsorted.eraseEdges, fun x => ?_, fun x y hx hy => ?_, fun x hx => ?_,
      fun x => ?_, fun y => by rw [hinn, h.inn_id], fun x hx => ?_, fun x y k hk hx hy => ?_,
      fun x y pe ce hx hxy hpe hce => ?_, fun x y k hk hy => ?_⟩
    · rw [hG₁, mem_ids_insert_of_mem _ _ hpG, h.ids_iff]
    · rw [hout, hinn, ← h.mirror x y hx hy]
      simp [hy]
    · exact h.noSelf x ((hout x x).mp hx).1
    · rw [hout, h.out_id]
      simp only [List.map_append, List.map_cons, List.map_nil, List.mem_append, List.mem_singleton, and_true]
      tauto
    · have hxp : x ≠ p := fun hxp => hx.2 (by simp [hxp])
      rw [hedges₁, if_neg fun hh => hxp hh.1]
      exact h.edges_id x ⟨hx.1, fun hx' => hx.2 (by simp [hx'])⟩
    · rw [hedges₁, if_neg fun hh => hy hh.2]
      exact h.keep x y k hk hx hy
    · have hy : y ≠ id := (hg.ne_of_mem_out (mem_out_of_mem_edges hce)).symm
      rw [hedges₁, if_neg fun hh => hy hh.2]
      exact h.spliced x y pe ce hx hxy hpe hce
    · rw [hedges₁, if_neg fun hh => hy hh.2] at hk
      exact h.upper x y k hk hy
  -- every child of `id` is a reference of the graph being released, with its edges of `g`
  have hbb : ∀ y ∈ r.borrowedBy, y.1 ∈ G₁.ids ∧ g.edges id y.1 = y.2 := by
    intro y hy
    have hyout : y.1 ∈ g.out id := by
      rw [out_of_get? hr]
      exact List.mem_map_of_mem hy
    exact ⟨(hrel₁.ids_iff y.1).mpr ⟨hg.mem_ids_of_mem_out hyout, (hg.ne_of_mem_out hyout).symm⟩,
      hg.toWellFormed.edges_eq_of_mem hr hy⟩
  have hids : ∀ G₂ : BorrowGraph Loc Lbl, Releasing g id (fun x => x ∈ g.inn id ∧ x ∉ (pre ++ [(p, ())]).map Prod.fst)
      (· ∈ g.out id) (· ∈ pre.map Prod.fst) G₂ → ∀ x, x ∈ G₂.ids ↔ x ∈ G₁.ids := by
    intro G₂ h₂ x
    rw [h₂.ids_iff, hrel₁.ids_iff]
  have hpG₁ : p ∈ G₁.ids := (mem_ids_insert_of_mem _ _ hpG).mpr hpG
  obtain ⟨G', hG', hrel', -, hP⟩ := foldlM_grow (l := S)
    (f := fun G₂ parentEdge => G₂.spliceParentEdge p (BorrowEdge.ofEntry parentEdge) r.borrowedBy)
    (Releasing g id (fun x => x ∈ g.inn id ∧ x ∉ (pre ++ [(p, ())]).map Prod.fst) (· ∈ g.out id)
      (· ∈ pre.map Prod.fst)) EdgesGrow
    (fun pe G₂ => ∀ y ∈ r.borrowedBy, ∀ ce ∈ y.2, p ≠ y.1 → spliceKey pe ce ∈ (G₂.edges p y.1).map Prod.fst)
    (fun _ _ _ _ he => he) (fun _ _ _ => EdgesGrow.trans)
    (fun pe G₂ G₃ hP hG y hy ce hce hpy => hG.mem_keys (hP y hy ce hce hpy))
    (fun pe hpe G₂ h₂ => h₂.spliceParentEdge ((hids G₂ h₂ p).mpr hpG₁) (hSg ▸ hpe)
      fun y hy => ⟨(hids G₂ h₂ y.1).mpr (hbb y hy).1, (hbb y hy).2⟩) G₁ hrel₁
  refine ⟨G', by simpa [BorrowGraph.releaseParent, hparent, hS] using hG', { hrel' with spliced := ?_ }⟩
  -- the parent is done: it has every splice
  intro x y pe ce hx hxy hpe hce
  rw [List.map_append, List.mem_append] at hx
  rcases hx with hx | hx
  · exact hrel'.spliced x y pe ce hx hxy hpe hce
  · obtain rfl : x = p := by simpa using hx
    obtain ⟨y', hy', rfl, hce'⟩ := exists_of_mem_edges hr hce
    exact hP pe (hSg ▸ hpe) y' hy' ce hce' hxy

end Parents

/-! ## The second loop and `release` -/

/-- A pass of the second loop at a child not yet done does not panic, and leaves it done; the
edges stay as they are. -/
theorem Releasing.releaseChild {D : RefID → Prop} (hg : g.Inv) {pre : List RefID}
    (h : Releasing g id (fun _ => False) (fun y => y ∈ g.out id ∧ y ∉ pre) D G) (hc : c ∈ g.out id) :
    ∃ G', releaseChild id G c = some G' ∧
      Releasing g id (fun _ => False) (fun y => y ∈ g.out id ∧ y ∉ pre ++ [c]) D G' := by
  have hcG : c ∈ G.ids := (h.ids_iff c).mpr ⟨hg.mem_ids_of_mem_out hc, (hg.ne_of_mem_out hc).symm⟩
  obtain ⟨child, hchild⟩ := mem_ids_iff.mp hcG
  have hsorted : RefSorted child := h.wellFormed.refSorted hchild
  have hedges : ∀ x y, (⟨SortedMap.insert c { child with borrowsFrom := SortedMap.erase id child.borrowsFrom } G.refs⟩ :
      BorrowGraph Loc Lbl).edges x y = G.edges x y := by
    intro x y
    rw [edges_insert]
    split_ifs with hxc
    · rw [hxc, edges_of_get? hchild]
    · rfl
  refine ⟨_, modifyRef_of_get? hchild _, h.wellFormed.insert _ hsorted.eraseBorrowsFrom, fun x => ?_,
    fun x y hx hy => ?_, fun x hx => ?_, fun x => ?_, fun y => ?_, fun _ hx => hx.elim,
    fun x y k hk hx hy => ?_, fun x y pe ce hx hxy hpe hce => ?_, fun x y k hk hy => ?_⟩
  · rw [mem_ids_insert_of_mem _ _ hcG, h.ids_iff]
  -- the child keeps its borrowers, and loses only `id` from what it borrows from
  · have hbb : child.borrowedBy.map Prod.fst = G.out c := (out_of_get? hchild).symm
    have hbf : ∀ z, z ≠ id → (z ∈ (SortedMap.erase id child.borrowsFrom).map Prod.fst ↔ z ∈ G.inn c) := by
      intro z hz
      rw [SortedMap.mem_keys_erase hsorted.borrowsFrom, inn_of_get? hchild]
      exact and_iff_left hz
    rw [out_insert, inn_insert]
    split_ifs with hxc hyc hyc
    · rw [hbb, hbf x hx, ← hxc, hyc, ← hxc]
      exact h.mirror x x hx hx
    · rw [hbb, ← hxc]
      exact h.mirror x y hx hy
    · rw [hbf x hx, ← hyc]
      exact h.mirror x y hx hy
    · exact h.mirror x y hx hy
  · rw [out_insert] at hx
    split_ifs at hx with hxc
    · rw [hxc, ← out_of_get? hchild] at hx
      exact h.noSelf c hx
    · exact h.noSelf x hx
  · rw [out_insert]
    split_ifs with hxc
    · rw [← out_of_get? hchild, ← hxc, h.out_id]
    · exact h.out_id x
  · rw [inn_insert]
    split_ifs with hyc
    · rw [hyc, SortedMap.mem_keys_erase hsorted.borrowsFrom]
      simp
    · rw [h.inn_id]
      simp [hyc]
  · rw [hedges]
    exact h.keep x y k hk hx hy
  · rw [hedges]
    exact h.spliced x y pe ce hx hxy hpe hce
  · rw [hedges] at hk
    exact h.upper x y k hk hy

section Release

variable {r : Ref Loc Lbl}

/-- **The two loops of `release`** run to the end on a reference of a graph of the invariant:
every parent and every child is done. -/
theorem releasing_release (h : g.Inv) (hr : SortedMap.get? id g.refs = some r) :
    ∃ G, g.release id = some G ∧
      Releasing g id (fun _ => False) (fun y => y ∈ g.out id ∧ y ∉ r.borrowedBy.map Prod.fst) (· ∈ g.inn id) G := by
  have hw := h.toWellFormed
  have hrs : RefSorted r := hw.refSorted hr
  -- with `id` out of the map, every parent of it lends to it and every child borrows from it
  have h₀ : Releasing g id (fun x => x ∈ g.inn id ∧ x ∉ ([] : List (RefID × Unit)).map Prod.fst) (· ∈ g.out id)
      (· ∈ ([] : List (RefID × Unit)).map Prod.fst) ⟨SortedMap.erase id g.refs⟩ := by
    refine ⟨hw.erase, fun x => mem_ids_erase hw, fun x y hx hy => ?_, fun x => ?_, fun x => ?_, fun y => ?_,
      fun x hx => ?_, fun x y k hk hx hy => ?_, fun x y pe ce hx => absurd hx List.not_mem_nil,
      fun x y k hk hy => ?_⟩
    · rw [out_erase hw, inn_erase hw, if_neg hx, if_neg hy]
      exact h.mirror x y
    · rw [out_erase hw]
      split_ifs
      · exact List.not_mem_nil
      · exact h.noSelf x
    · rw [out_erase hw]
      split_ifs with hx
      · subst hx
        simp only [List.not_mem_nil, false_iff]
        exact fun hxx => h.ne_of_mem_inn hxx.1 rfl
      · rw [h.mirror]
        simp
    · rw [inn_erase hw]
      split_ifs with hy
      · subst hy
        simp only [List.not_mem_nil, false_iff]
        exact h.noSelf y
      · exact (h.mirror id y).symm
    · rw [edges_erase hw, if_neg (h.ne_of_mem_inn hx.1)]
    · rw [edges_erase hw, if_neg hx]
      exact hk
    · rw [edges_erase hw] at hk
      split_ifs at hk
      · exact absurd hk List.not_mem_nil
      · exact Or.inl hk
  obtain ⟨G₁, hloop₁, hG₁⟩ := foldlM_invariant (f := releaseParent id r) (l := r.borrowsFrom)
    (fun pre G => Releasing g id (fun x => x ∈ g.inn id ∧ x ∉ pre.map Prod.fst) (· ∈ g.out id)
      (· ∈ pre.map Prod.fst) G)
    (fun pre x suf G hl hG => by
      obtain ⟨p, ⟨⟩⟩ := x
      have hp : p ∈ g.inn id := by
        rw [inn_of_get? hr, hl]
        simp
      -- `borrows_from` is a set: each parent once
      have hppre : p ∉ pre.map Prod.fst := not_mem_map_prefix hl hrs.borrowsFrom.nodup_keys
      exact hG.releaseParent h hr hp hppre) _ h₀
  -- every parent is done
  have hG₁' : Releasing g id (fun _ => False) (fun y => y ∈ g.out id ∧ y ∉ ([] : List RefID)) (· ∈ g.inn id) G₁ := by
    refine ⟨hG₁.wellFormed, hG₁.ids_iff, hG₁.mirror, hG₁.noSelf, fun x => ?_, fun y => ?_, fun _ hx => hx.elim,
      hG₁.keep, fun x y pe ce hx => hG₁.spliced x y pe ce ?_, hG₁.upper⟩
    · rw [hG₁.out_id, inn_of_get? hr]
      simp
    · rw [hG₁.inn_id]
      simp
    · rwa [inn_of_get? hr] at hx
  obtain ⟨G₂, hloop₂, hG₂⟩ := foldlM_invariant (f := releaseChild id) (l := r.borrowedBy.map Prod.fst)
    (fun pre G => Releasing g id (fun _ => False) (fun y => y ∈ g.out id ∧ y ∉ pre) (· ∈ g.inn id) G)
    (fun pre c suf G hl hG => by
      have hc : c ∈ g.out id := by
        rw [out_of_get? hr, hl]
        simp
      exact hG.releaseChild h hc) _ hG₁'
  exact ⟨G₂, by simp [BorrowGraph.release, hr, hloop₁, hloop₂], hG₂⟩

/-- Released to the end, the graph keeps the invariant: `id` is nowhere, so the mirror holds at
it too. -/
theorem Releasing.inv {D : RefID → Prop} (hr : SortedMap.get? id g.refs = some r)
    (h : Releasing g id (fun _ => False) (fun y => y ∈ g.out id ∧ y ∉ r.borrowedBy.map Prod.fst) D G) :
    G.Inv := by
  refine ⟨h.wellFormed, fun x y => ?_, h.noSelf⟩
  have hout : ∀ x, id ∉ G.out x := fun x hx => (h.out_id x).mp hx
  have hinn : ∀ y, id ∉ G.inn y := fun y hy => by
    obtain ⟨hy, hy'⟩ := (h.inn_id y).mp hy
    rw [out_of_get? hr] at hy
    exact hy' hy
  have hnot : id ∉ G.ids := fun hmem => ((h.ids_iff id).mp hmem).2 rfl
  by_cases hx : x = id
  · subst hx
    rw [out_of_not_mem hnot]
    simp [hinn y]
  · by_cases hy : y = id
    · subst hy
      rw [inn_of_not_mem hnot]
      simp [hout x]
    · exact h.mirror x y hx hy

/-- Released to the end, the graph has between two references their edges of `g` and, for a
parent and a child of `id`, distinct, the splice of each edge into `id` with each edge out of it. -/
theorem Releasing.mem_keys_iff {B : RefID → Prop} (hg : g.Inv)
    (h : Releasing g id (fun _ => False) B (· ∈ g.inn id) G) (x y : RefID) (k : EdgeKey Lbl) :
    k ∈ (G.edges x y).map Prod.fst ↔ (k ∈ (g.edges x y).map Prod.fst ∧ x ≠ id ∧ y ≠ id) ∨
      (x ≠ y ∧ ∃ pe ∈ g.edges x id, ∃ ce ∈ g.edges id y, k = spliceKey pe ce) := by
  constructor
  · intro hk
    obtain ⟨e, he, rfl⟩ := List.mem_map.mp hk
    have hyx : y ∈ G.out x := mem_out_of_mem_edges he
    have hy : y ≠ id := fun hy => (h.out_id x).mp (hy ▸ hyx)
    have hx : x ≠ id := ((h.ids_iff x).mp (mem_ids_of_mem_out hyx)).2
    exact (h.upper x y _ hk hy).imp_left fun hk' => ⟨hk', hx, hy⟩
  · rintro (⟨hk, hx, hy⟩ | ⟨hxy, pe, hpe, ce, hce, rfl⟩)
    · exact h.keep x y k hk hx hy
    · exact h.spliced x y pe ce ((hg.mirror x id).mp (mem_out_of_mem_edges hpe)) hxy hpe hce

/-- **Releasing a reference keeps the invariant.** `release` of a reference of a graph of the
invariant does not panic; it keeps the invariant, and the references but the released one. -/
theorem Inv.release (h : g.Inv) (hid : id ∈ g.ids) :
    ∃ g', g.release id = some g' ∧ g'.Inv ∧ ∀ x, x ∈ g'.ids ↔ x ∈ g.ids ∧ x ≠ id := by
  obtain ⟨r, hr⟩ := mem_ids_iff.mp hid
  obtain ⟨G, hG, hrel⟩ := releasing_release h hr
  exact ⟨G, hG, hrel.inv hr, hrel.ids_iff⟩

/-- **`release` splices the released reference out.** On a reference of a graph of the
invariant, `release` does not panic, keeps the invariant and every other reference; between two
references it leaves the strengths and paths of their edges before, unless one of them is the
released reference, and for a parent and a child of it, distinct, the edge
`splice_out_intermediate` makes of each parent edge into it and each child edge out of it. -/
theorem release_spec (h : g.Inv) (hid : id ∈ g.ids) :
    ∃ g', g.release id = some g' ∧ g'.Inv ∧ (∀ x, x ∈ g'.ids ↔ x ∈ g.ids ∧ x ≠ id) ∧
      ∀ x y k, k ∈ (g'.edges x y).map Prod.fst ↔ (k ∈ (g.edges x y).map Prod.fst ∧ x ≠ id ∧ y ≠ id) ∨
        (x ≠ y ∧ ∃ pe ∈ g.edges x id, ∃ ce ∈ g.edges id y, k = spliceKey pe ce) := by
  obtain ⟨r, hr⟩ := mem_ids_iff.mp hid
  obtain ⟨G, hG, hrel⟩ := releasing_release h hr
  exact ⟨G, hG, hrel.inv hr, hrel.ids_iff, hrel.mem_keys_iff h⟩

/-- Three references in a chain: `1` borrows from `0` exactly, and `2` from field `5` of `1`,
weakly. -/
def chain : BorrowGraph Unit ℕ :=
  ⟨[(0, ⟨[(1, [(⟨true, []⟩, ())])], [], true⟩),
    (1, ⟨[(2, [(⟨false, [5]⟩, ())])], [(0, ())], true⟩),
    (2, ⟨[], [(1, ())], true⟩)]⟩

/-- Releasing the middle reference of `chain` leaves `2` borrowing from field `5` of `0`,
weakly. -/
theorem release_spec_chain :
    ∃ g', chain.release 1 = some g' ∧ g'.Inv ∧ (⟨false, [5]⟩ : EdgeKey ℕ) ∈ (g'.edges 0 2).map Prod.fst := by
  obtain ⟨g', hg', hinv, -, hkeys⟩ := release_spec (by decide : chain.Inv) (by decide : 1 ∈ chain.ids)
  refine ⟨g', hg', hinv, (hkeys 0 2 _).mpr (Or.inr ⟨by decide, (⟨true, []⟩, ()), by decide, (⟨false, [5]⟩, ()),
    by decide, rfl⟩)⟩

end Release

end BorrowGraph

end Dijets.Move
