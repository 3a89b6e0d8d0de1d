import Dijets.Move.BorrowGraphInvariant

/-!
# Renaming references

`remap_refs` renames the references of a graph: in each reference's maps, then in the graph's
own map, each `(old, new)` of `id_map` in order, an entry of `old` taken out and put back under
`new` (`renameKeys`). Each id then ends up under the composite rename `renameId`: the entries
of `id_map` applied to it one after another.

That is so when no entry lands on a key that is still there: when the new ids are distinct, and
a new id that is already a reference is its own old id (`renameKeys_spec`). The rename is then
injective on the references (`renameId_injOn`), so the edges between two renamed references are
the old ones between them (`edges_remapRefs`), and the graph keeps the invariant
(`Inv.remapRefs`). A map that renames `1` to `2` while `2` is a reference loses the reference
`2`; the condition rules that out.
-/

set_option autoImplicit false

namespace Dijets.Move

open Dijets.Lib

/-- Where `id_map` sends an id: its entries applied one after another. -/
def renameId (idMap : List (RefID × RefID)) (k : RefID) : RefID :=
  idMap.foldl (fun k e => if k = e.1 then e.2 else k) k

/-- The condition on `id_map` under which renaming loses no entry, for the keys `S`: the new ids
are distinct, and one that is already a key is its own old id. -/
structure Renames (idMap : List (RefID × RefID)) (S : RefID → Prop) : Prop where
  nodup : (idMap.map Prod.snd).Nodup
  fresh : ∀ e ∈ idMap, S e.2 → e.2 = e.1

section Rename

variable {β : Type} {idMap : List (RefID × RefID)} {S : RefID → Prop} {a b : RefID}

theorem renameId_cons (e : RefID × RefID) (idMap : List (RefID × RefID)) (k : RefID) :
    renameId (e :: idMap) k = renameId idMap (if k = e.1 then e.2 else k) := rfl

theorem renameKeys_cons (e : RefID × RefID) (L : List (RefID × RefID)) (m : List (RefID × β)) :
    renameKeys (e :: L) m = renameKeys L (renameKey m e) := rfl

/-- The rest of the map renames the keys that the first entry leaves. -/
theorem Renames.tail (h : Renames ((a, b) :: idMap) S) :
    Renames idMap fun k => ∃ k₀, S k₀ ∧ (if k₀ = a then b else k₀) = k := by
  have hnd := h.nodup
  rw [List.map_cons, List.nodup_cons] at hnd
  refine ⟨hnd.2, fun e he => ?_⟩
  rintro ⟨k₀, hk₀, hk⟩
  split_ifs at hk with ha
  · -- the first entry's new id is no later entry's
    exact absurd (List.mem_map.mpr ⟨e, he, hk.symm⟩) hnd.1
  · exact h.fresh e (List.mem_cons_of_mem _ he) (hk ▸ hk₀)

/-- One rename of a sorted map: each entry goes to the new key of its own. -/
theorem mem_rename_one {m : List (RefID × β)} (hm : SortedMap.Sorted m) (hb : b ∈ m.map Prod.fst → b = a)
    {k : RefID} {v : β} :
    (k, v) ∈ renameKey m (a, b) ↔ ∃ k₀, (k₀, v) ∈ m ∧ (if k₀ = a then b else k₀) = k := by
  unfold renameKey
  cases ha : SortedMap.get? a m with
  | none =>
    -- `a` is no key, so no entry moves
    simp only
    have hne : ∀ k₀, (k₀, v) ∈ m → k₀ ≠ a := fun k₀ hk₀ => SortedMap.get?_eq_none_iff.mp ha _ hk₀
    constructor
    · exact fun hk => ⟨k, hk, if_neg (hne k hk)⟩
    · rintro ⟨k₀, hk₀, hk⟩
      rw [if_neg (hne k₀ hk₀)] at hk
      rwa [← hk]
  | some w =>
    simp only
    rw [SortedMap.mem_insert (SortedMap.sorted_erase hm), SortedMap.mem_erase hm, Prod.mk.injEq]
    have haw : (a, w) ∈ m := SortedMap.mem_of_get? ha
    constructor
    · rintro (⟨rfl, rfl⟩ | ⟨⟨hkv, hka⟩, -⟩)
      · exact ⟨a, haw, if_pos rfl⟩
      · exact ⟨k, hkv, if_neg hka⟩
    · rintro ⟨k₀, hk₀, hk⟩
      split_ifs at hk with h₀
      · -- the entry of `a` is the one whose value moves
        rw [h₀] at hk₀
        have hvw : some w = some v := ha ▸ (SortedMap.get?_eq_some_iff hm).mpr hk₀
        exact Or.inl ⟨hk.symm, (Option.some.inj hvw).symm⟩
      · subst hk
        refine Or.inr ⟨⟨hk₀, h₀⟩, fun hkb => h₀ ?_⟩
        exact hkb.trans (hb (hkb ▸ List.mem_map_of_mem (f := Prod.fst) hk₀))

/-- **Renaming the keys of a sorted map.** When no entry of `id_map` lands on a key still there,
the map stays sorted and each entry moves to the composite rename of its key. -/
theorem renameKeys_spec {m : List (RefID × β)} (hr : Renames idMap S) (hm : SortedMap.Sorted m)
    (hS : ∀ e ∈ m, S e.1) :
    SortedMap.Sorted (renameKeys idMap m) ∧
      ∀ k v, (k, v) ∈ renameKeys idMap m ↔ ∃ k₀, (k₀, v) ∈ m ∧ renameId idMap k₀ = k := by
  induction idMap generalizing S m with
  | nil => exact ⟨hm, fun k v => ⟨fun h => ⟨k, h, rfl⟩, fun ⟨k₀, h, hk⟩ => hk ▸ h⟩⟩
  | cons e L ih =>
    obtain ⟨a, b⟩ := e
    -- the map after the first entry: sorted, each entry under its key's first rename
    have hb : b ∈ m.map Prod.fst → b = a := fun hbm => by
      obtain ⟨e, he, hbe⟩ := List.mem_map.mp hbm
      exact hr.fresh (a, b) List.mem_cons_self (hbe ▸ hS e he)
    have hmem₁ := fun k v => mem_rename_one (k := k) (v := v) hm hb
    have hsorted₁ : SortedMap.Sorted (renameKey m (a, b)) := by
      unfold renameKey
      split
      · exact SortedMap.sorted_insert (SortedMap.sorted_erase hm)
      · exact hm
    obtain ⟨hsorted', hmem'⟩ := ih hr.tail hsorted₁ fun e he => by
      obtain ⟨k₀, hk₀, hk⟩ := (hmem₁ e.1 e.2).mp he
      exact ⟨k₀, hS _ hk₀, hk⟩
    refine ⟨hsorted', fun k v => ?_⟩
    rw [renameKeys_cons, hmem']
    constructor
    · rintro ⟨k₁, hk₁, rfl⟩
      obtain ⟨k₀, hk₀, rfl⟩ := (hmem₁ k₁ v).mp hk₁
      exact ⟨k₀, hk₀, rfl⟩
    · rintro ⟨k₀, hk₀, rfl⟩
      exact ⟨_, (hmem₁ _ v).mpr ⟨k₀, hk₀, rfl⟩, rfl⟩

/-- Under such a map the composite rename is injective on the keys. -/
theorem renameId_injOn (hr : Renames idMap S) {x y : RefID} (hx : S x) (hy : S y)
    (h : renameId idMap x = renameId idMap y) : x = y := by
  induction idMap generalizing S x y with
  | nil => exact h
  | cons e L ih =>
    obtain ⟨a, b⟩ := e
    rw [renameId_cons, renameId_cons] at h
    -- the first entry is injective on the keys, and the rest on the keys it leaves
    have h₁ := ih hr.tail ⟨x, hx, rfl⟩ ⟨y, hy, rfl⟩ h
    have hfresh : S b → b = a := hr.fresh (a, b) List.mem_cons_self
    split_ifs at h₁ with hxa hya hya
    · rw [hxa, hya]
    · exact absurd (h₁.symm.trans (hfresh (h₁ ▸ hy))) hya
    · exact absurd (h₁.trans (hfresh (h₁ ▸ hx))) hxa
    · exact h₁

theorem mem_keys_renameKeys {m : List (RefID × β)} (hr : Renames idMap S) (hm : SortedMap.Sorted m)
    (hS : ∀ e ∈ m, S e.1) {k : RefID} :
    k ∈ (renameKeys idMap m).map Prod.fst ↔ ∃ k₀ ∈ m.map Prod.fst, renameId idMap k₀ = k := by
  have hmem := (renameKeys_spec hr hm hS).2
  constructor
  · rintro hk
    obtain ⟨⟨k', v⟩, hkv, rfl⟩ := List.mem_map.mp hk
    obtain ⟨k₀, hk₀, rfl⟩ := (hmem k' v).mp hkv
    exact ⟨k₀, List.mem_map_of_mem (f := Prod.fst) hk₀, rfl⟩
  · rintro ⟨k₀, hk₀, rfl⟩
    obtain ⟨⟨k₀', v⟩, hkv, rfl⟩ := List.mem_map.mp hk₀
    exact List.mem_map_of_mem (f := Prod.fst) ((hmem _ v).mpr ⟨_, hkv, rfl⟩)

/-- A renamed key has the value the old one had. -/
theorem get?_renameKeys {m : List (RefID × β)} (hr : Renames idMap S) (hm : SortedMap.Sorted m)
    (hS : ∀ e ∈ m, S e.1) {k : RefID} (hk : S k) :
    SortedMap.get? (renameId idMap k) (renameKeys idMap m) = SortedMap.get? k m := by
  obtain ⟨hsorted, hmem⟩ := renameKeys_spec hr hm hS
  cases hv : SortedMap.get? k m with
  | some v =>
    exact (SortedMap.get?_eq_some_iff hsorted).mpr ((hmem _ v).mpr ⟨k, SortedMap.mem_of_get? hv, rfl⟩)
  | none =>
    -- an entry under the new id would come from a key with the same rename, which is `k`
    rw [SortedMap.get?_eq_none_iff]
    rintro ⟨k', v⟩ hkv hk'
    obtain ⟨k₀, hk₀, hρ⟩ := (hmem k' v).mp hkv
    have hk₀k : k₀ = k := renameId_injOn hr (hS _ hk₀) hk (hρ.trans hk')
    exact SortedMap.get?_eq_none_iff.mp hv _ hk₀ hk₀k

end Rename

/-! ## The renamed graph -/

namespace BorrowGraph

variable {Loc Lbl : Type} [LinearOrder Lbl] {g : BorrowGraph Loc Lbl} {idMap : List (RefID × RefID)}

section Remap

variable (h : g.Inv)
include h

/-- The borrowers and the lenders of a reference of the graph are references of the graph, so
its maps are renamed as the graph's is. -/
theorem renames_borrowedBy {p : RefID} {r : Ref Loc Lbl} (hp : (p, r) ∈ g.refs) :
    ∀ e ∈ r.borrowedBy, e.1 ∈ g.ids := by
  intro e he
  have hget := (SortedMap.get?_eq_some_iff h.sorted).mpr hp
  exact h.mem_ids_of_mem_out (c := e.1) (p := p) (by rw [out_of_get? hget]; exact List.mem_map_of_mem he)

theorem renames_borrowsFrom {c : RefID} {r : Ref Loc Lbl} (hc : (c, r) ∈ g.refs) :
    ∀ e ∈ r.borrowsFrom, e.1 ∈ g.ids := by
  intro e he
  have hget := (SortedMap.get?_eq_some_iff h.sorted).mpr hc
  exact h.mem_ids_of_mem_inn (p := e.1) (c := c) (by rw [inn_of_get? hget]; exact List.mem_map_of_mem he)

variable (hr : Renames idMap (· ∈ g.ids))
include hr

theorem remapRefs_spec :
    SortedMap.Sorted (g.remapRefs idMap).refs ∧ ∀ k r, (k, r) ∈ (g.remapRefs idMap).refs ↔
      ∃ k₀ r₀, (k₀, r₀) ∈ g.refs ∧ r = r₀.remapRefs idMap ∧ renameId idMap k₀ = k := by
  have hsorted : SortedMap.Sorted (g.refs.map fun e => (e.1, e.2.remapRefs idMap)) :=
    List.Pairwise.map _ (fun _ _ hab => hab) h.sorted
  obtain ⟨hs, hmem⟩ := renameKeys_spec hr hsorted fun e he => by
    obtain ⟨e₀, he₀, rfl⟩ := List.mem_map.mp he
    exact List.mem_map.mpr ⟨e₀, he₀, rfl⟩
  refine ⟨hs, fun k r => ?_⟩
  rw [remapRefs, hmem]
  constructor
  · rintro ⟨k₀, hk₀, rfl⟩
    obtain ⟨⟨k₀', r₀⟩, hr₀, he⟩ := List.mem_map.mp hk₀
    simp only [Prod.mk.injEq] at he
    obtain ⟨rfl, rfl⟩ := he
    exact ⟨k₀', r₀, hr₀, rfl, rfl⟩
  · rintro ⟨k₀, r₀, hr₀, rfl, rfl⟩
    exact ⟨k₀, List.mem_map_of_mem (f := fun e => (e.1, e.2.remapRefs idMap)) hr₀, rfl⟩

theorem wellFormed_remapRefs : (g.remapRefs idMap).WellFormed := by
  obtain ⟨hs, hmem⟩ := remapRefs_spec h hr
  refine ⟨hs, fun e he => ?_⟩
  obtain ⟨k₀, r₀, hr₀, hr', -⟩ := (hmem e.1 e.2).mp he
  have hsr : RefSorted r₀ := h.refs _ hr₀
  obtain ⟨hbb, hbbmem⟩ := renameKeys_spec hr hsr.borrowedBy (renames_borrowedBy h hr₀)
  rw [hr']
  refine ⟨hbb, fun x hx => ?_, (renameKeys_spec hr hsr.borrowsFrom (renames_borrowsFrom h hr₀)).1⟩
  obtain ⟨c₀, hc₀, -⟩ := (hbbmem x.1 x.2).mp hx
  exact hsr.edges (c₀, x.2) hc₀

/-- The borrowers of a renamed reference are the renamed borrowers. -/
theorem mem_out_remapRefs {x c : RefID} :
    c ∈ (g.remapRefs idMap).out x ↔ ∃ p c₀, c₀ ∈ g.out p ∧ renameId idMap p = x ∧ renameId idMap c₀ = c := by
  obtain ⟨-, hmem⟩ := remapRefs_spec h hr
  rw [mem_out_iff (wellFormed_remapRefs h hr)]
  constructor
  · rintro ⟨r, hxr, hc⟩
    obtain ⟨p, r₀, hr₀, rfl, rfl⟩ := (hmem x r).mp hxr
    obtain ⟨c₀, hc₀, rfl⟩ := (mem_keys_renameKeys hr (h.refs _ hr₀).borrowedBy (renames_borrowedBy h hr₀)).mp hc
    exact ⟨p, c₀, (mem_out_iff h.toWellFormed).mpr ⟨r₀, hr₀, hc₀⟩, rfl, rfl⟩
  · rintro ⟨p, c₀, hc₀, rfl, rfl⟩
    obtain ⟨r₀, hr₀, hc₀⟩ := (mem_out_iff h.toWellFormed).mp hc₀
    exact ⟨_, (hmem _ _).mpr ⟨p, r₀, hr₀, rfl, rfl⟩,
      (mem_keys_renameKeys hr (h.refs _ hr₀).borrowedBy (renames_borrowedBy h hr₀)).mpr ⟨c₀, hc₀, rfl⟩⟩

/-- What a renamed reference borrows from is the renamed lenders. -/
theorem mem_inn_remapRefs {y p : RefID} :
    p ∈ (g.remapRefs idMap).inn y ↔ ∃ c p₀, p₀ ∈ g.inn c ∧ renameId idMap c = y ∧ renameId idMap p₀ = p := by
  obtain ⟨-, hmem⟩ := remapRefs_spec h hr
  rw [mem_inn_iff (wellFormed_remapRefs h hr)]
  constructor
  · rintro ⟨r, hyr, hp⟩
    obtain ⟨c, r₀, hr₀, rfl, rfl⟩ := (hmem y r).mp hyr
    obtain ⟨p₀, hp₀, rfl⟩ := (mem_keys_renameKeys hr (h.refs _ hr₀).borrowsFrom (renames_borrowsFrom h hr₀)).mp hp
    exact ⟨c, p₀, (mem_inn_iff h.toWellFormed).mpr ⟨r₀, hr₀, hp₀⟩, rfl, rfl⟩
  · rintro ⟨c, p₀, hp₀, rfl, rfl⟩
    obtain ⟨r₀, hr₀, hp₀⟩ := (mem_inn_iff h.toWellFormed).mp hp₀
    exact ⟨_, (hmem _ _).mpr ⟨c, r₀, hr₀, rfl, rfl⟩,
      (mem_keys_renameKeys hr (h.refs _ hr₀).borrowsFrom (renames_borrowsFrom h hr₀)).mpr ⟨p₀, hp₀, rfl⟩⟩

/-- **`remap_refs` renames the edges**: between two renamed references stand exactly the edges
that stood between the old ones. -/
theorem edges_remapRefs {p c : RefID} (hp : p ∈ g.ids) (hc : c ∈ g.ids) :
    (g.remapRefs idMap).edges (renameId idMap p) (renameId idMap c) = g.edges p c := by
  obtain ⟨hs, hmem⟩ := remapRefs_spec h hr
  obtain ⟨r₀, hr₀⟩ := mem_ids_iff.mp hp
  have hmem₀ := SortedMap.mem_of_get? hr₀
  have hget : SortedMap.get? (renameId idMap p) (g.remapRefs idMap).refs = some (r₀.remapRefs idMap) :=
    (SortedMap.get?_eq_some_iff hs).mpr ((hmem _ _).mpr ⟨p, r₀, hmem₀, rfl, rfl⟩)
  rw [edges_of_get? hget, edges_of_get? hr₀]
  exact congrArg (·.getD []) (get?_renameKeys hr (h.refs _ hmem₀).borrowedBy (renames_borrowedBy h hmem₀) hc)

/-- **Renaming keeps the invariant**, and the references are the renamed ones. -/
theorem Inv.remapRefs :
    (g.remapRefs idMap).Inv ∧ ∀ x, x ∈ (g.remapRefs idMap).ids ↔ ∃ x₀ ∈ g.ids, renameId idMap x₀ = x := by
  obtain ⟨-, hmem⟩ := remapRefs_spec h hr
  refine ⟨⟨wellFormed_remapRefs h hr, fun x y => ?_, fun x hx => ?_⟩, fun x => ?_⟩
  · rw [mem_out_remapRefs h hr, mem_inn_remapRefs h hr]
    constructor
    · rintro ⟨p, c₀, hc₀, rfl, rfl⟩
      exact ⟨c₀, p, (h.mirror p c₀).mp hc₀, rfl, rfl⟩
    · rintro ⟨c, p₀, hp₀, rfl, rfl⟩
      exact ⟨p₀, c, (h.mirror p₀ c).mpr hp₀, rfl, rfl⟩
  · -- the rename is injective on the references, so the edge would be a self loop
    obtain ⟨p, c₀, hc₀, hp, hc⟩ := (mem_out_remapRefs h hr).mp hx
    have hpc : p = c₀ :=
      renameId_injOn hr (BorrowGraph.mem_ids_of_mem_out hc₀) (h.mem_ids_of_mem_out hc₀) (hp.trans hc.symm)
    subst hpc
    exact h.noSelf p hc₀
  · constructor
    · intro hx
      obtain ⟨⟨k, r⟩, hkr, rfl⟩ := List.mem_map.mp hx
      obtain ⟨k₀, r₀, hr₀, -, rfl⟩ := (hmem k r).mp hkr
      exact ⟨k₀, List.mem_map.mpr ⟨_, hr₀, rfl⟩, rfl⟩
    · rintro ⟨x₀, hx₀, rfl⟩
      obtain ⟨r₀, hr₀⟩ := mem_ids_iff.mp hx₀
      exact List.mem_map.mpr ⟨_, (hmem _ _).mpr ⟨x₀, r₀, SortedMap.mem_of_get? hr₀, rfl, rfl⟩, rfl⟩

end Remap

end BorrowGraph

end Dijets.Move
