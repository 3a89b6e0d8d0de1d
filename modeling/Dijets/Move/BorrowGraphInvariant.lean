import Dijets.Move.BorrowGraph

/-!
# The borrow graph's invariant

`check_invariant` asks three things of a borrow graph: every id on an edge is a reference of
the graph, `borrowed_by` and `borrows_from` mirror each other, and no reference borrows from
itself. Here the graph is read through its references (`ids`), the borrowers of each
reference (`out`), what each borrows from (`inn`) and the edges between two (`edges`), an
absent reference having none of them. The mirror is then one equivalence,
`c ∈ out p ↔ p ∈ inn c`, and it already says that the ends of every edge are references of the
graph. `Inv` is that, no self loops, and the order of the maps and sets (`WellFormed`);
`checkInvariant_iff` says that on ordered maps it is exactly what `check_invariant` checks.

`add_edge` is the one way the operations add an edge: `addEdge_spec` says what it does to the
views (`AddsEdge`), and `Inv.addsEdge` that this keeps the invariant. `new_ref` and the weak
borrows keep it too (`Inv.newRef`, `Inv.addPath`). Every other operation is proved through
these and the lemmas on what replacing or removing one reference does to the views.
-/

set_option autoImplicit false

namespace Dijets.Move

open Dijets.Lib

variable {Loc Lbl : Type}

namespace BorrowGraph

/-! ## What the invariant reads -/

/-- The references of the graph. -/
def ids (g : BorrowGraph Loc Lbl) : List RefID := g.refs.map Prod.fst

/-- The references that borrow from `p`: the keys of its `borrowed_by`. -/
def out (g : BorrowGraph Loc Lbl) (p : RefID) : List RefID :=
  ((SortedMap.get? p g.refs).map fun r => r.borrowedBy.map Prod.fst).getD []

/-- The references `c` borrows from: its `borrows_from`. -/
def inn (g : BorrowGraph Loc Lbl) (c : RefID) : List RefID :=
  ((SortedMap.get? c g.refs).map fun r => r.borrowsFrom.map Prod.fst).getD []

/-- The edges from `p` to `c`. -/
def edges (g : BorrowGraph Loc Lbl) (p c : RefID) : EdgeSet Loc Lbl :=
  ((SortedMap.get? p g.refs).bind fun r => SortedMap.get? c r.borrowedBy).getD []

variable {g : BorrowGraph Loc Lbl} {p c x y id : RefID} {r : Ref Loc Lbl}

/-! ## Reading the views -/

theorem mem_ids_iff : x ∈ g.ids ↔ ∃ r, SortedMap.get? x g.refs = some r :=
  SortedMap.get?_isSome_iff.symm.trans Option.isSome_iff_exists

theorem get?_eq_none_of_not_mem (hx : x ∉ g.ids) : SortedMap.get? x g.refs = none :=
  Option.not_isSome_iff_eq_none.mp fun h => hx (SortedMap.get?_isSome_iff.mp h)

theorem out_of_get? (h : SortedMap.get? p g.refs = some r) : g.out p = r.borrowedBy.map Prod.fst := by
  simp [out, h]

theorem inn_of_get? (h : SortedMap.get? c g.refs = some r) : g.inn c = r.borrowsFrom.map Prod.fst := by
  simp [inn, h]

theorem edges_of_get? (h : SortedMap.get? p g.refs = some r) :
    g.edges p c = (SortedMap.get? c r.borrowedBy).getD [] := by
  simp [edges, h]

theorem out_of_not_mem (hx : x ∉ g.ids) : g.out x = [] := by
  simp [out, get?_eq_none_of_not_mem hx]

theorem inn_of_not_mem (hx : x ∉ g.ids) : g.inn x = [] := by
  simp [inn, get?_eq_none_of_not_mem hx]

theorem edges_of_not_mem (hx : x ∉ g.ids) : g.edges x c = [] := by
  simp [edges, get?_eq_none_of_not_mem hx]

/-- Only a reference of the graph has borrowers. -/
theorem mem_ids_of_mem_out (h : c ∈ g.out p) : p ∈ g.ids := by
  by_contra hp
  rw [out_of_not_mem hp] at h
  exact List.not_mem_nil h

/-- Only a reference of the graph borrows. -/
theorem mem_ids_of_mem_inn (h : p ∈ g.inn c) : c ∈ g.ids := by
  by_contra hc
  rw [inn_of_not_mem hc] at h
  exact List.not_mem_nil h

theorem mem_out_of_mem_edges {e : EdgeKey Lbl × Loc} (he : e ∈ g.edges p c) : c ∈ g.out p := by
  obtain ⟨rp, hrp⟩ := mem_ids_iff.mp (show p ∈ g.ids by
    by_contra hp
    simp [edges, get?_eq_none_of_not_mem hp] at he)
  rw [edges_of_get? hrp] at he
  rw [out_of_get? hrp]
  cases hc : SortedMap.get? c rp.borrowedBy with
  | none => simp [hc] at he
  | some S => exact SortedMap.mem_keys_of_get? hc

/-! ### Replacing and removing one reference -/

section Update

variable (g) (r)

theorem mem_ids_insert : y ∈ (⟨SortedMap.insert x r g.refs⟩ : BorrowGraph Loc Lbl).ids ↔ y = x ∨ y ∈ g.ids :=
  SortedMap.mem_keys_insert

/-- Replacing a reference keeps the references. -/
theorem mem_ids_insert_of_mem (hx : x ∈ g.ids) :
    y ∈ (⟨SortedMap.insert x r g.refs⟩ : BorrowGraph Loc Lbl).ids ↔ y ∈ g.ids := by
  rw [mem_ids_insert]
  constructor
  · rintro (rfl | hy)
    exacts [hx, hy]
  · exact Or.inr

theorem out_insert : (⟨SortedMap.insert x r g.refs⟩ : BorrowGraph Loc Lbl).out y =
    if y = x then r.borrowedBy.map Prod.fst else g.out y := by
  unfold out
  rw [SortedMap.get?_insert]
  split_ifs <;> rfl

theorem inn_insert : (⟨SortedMap.insert x r g.refs⟩ : BorrowGraph Loc Lbl).inn y =
    if y = x then r.borrowsFrom.map Prod.fst else g.inn y := by
  unfold inn
  rw [SortedMap.get?_insert]
  split_ifs <;> rfl

theorem edges_insert : (⟨SortedMap.insert x r g.refs⟩ : BorrowGraph Loc Lbl).edges y c =
    if y = x then (SortedMap.get? c r.borrowedBy).getD [] else g.edges y c := by
  unfold edges
  rw [SortedMap.get?_insert]
  split_ifs <;> rfl

end Update

variable [LinearOrder Lbl]

/-! ## The invariant -/

/-- The maps and sets of a reference are sorted, as a `BTreeMap` and a `BTreeSet` keep them. -/
structure RefSorted (r : Ref Loc Lbl) : Prop where
  borrowedBy : SortedMap.Sorted r.borrowedBy
  edges : ∀ e ∈ r.borrowedBy, SortedMap.Sorted e.2
  borrowsFrom : SortedMap.Sorted r.borrowsFrom

/-- The maps and sets of the graph are sorted. -/
structure WellFormed (g : BorrowGraph Loc Lbl) : Prop where
  sorted : SortedMap.Sorted g.refs
  refs : ∀ e ∈ g.refs, RefSorted e.2

/-- **The invariant** `check_invariant` checks: `borrowed_by` and `borrows_from` mirror each
other, which makes every id on an edge a reference of the graph, and no reference borrows
from itself. -/
structure Inv (g : BorrowGraph Loc Lbl) : Prop extends g.WellFormed where
  mirror : ∀ p c, c ∈ g.out p ↔ p ∈ g.inn c
  noSelf : ∀ p, p ∉ g.out p

theorem WellFormed.refSorted (hw : g.WellFormed) (h : SortedMap.get? x g.refs = some r) : RefSorted r :=
  hw.refs _ (SortedMap.mem_of_get? h)

/-! ### Sorted references -/

namespace RefSorted

variable {r : Ref Loc Lbl}

theorem sorted_edges (hr : RefSorted r) (c : RefID) : SortedMap.Sorted ((SortedMap.get? c r.borrowedBy).getD []) := by
  cases h : SortedMap.get? c r.borrowedBy with
  | none => exact SortedMap.sorted_nil
  | some S => exact hr.edges _ (SortedMap.mem_of_get? h)

/-- Giving a borrower a sorted set of edges keeps a reference sorted. -/
theorem insertEdges (hr : RefSorted r) {S : EdgeSet Loc Lbl} (hS : SortedMap.Sorted S) :
    RefSorted { r with borrowedBy := SortedMap.insert c S r.borrowedBy } := by
  refine ⟨SortedMap.sorted_insert hr.borrowedBy, fun e he => ?_, hr.borrowsFrom⟩
  rcases SortedMap.mem_of_mem_insert he with rfl | he
  · exact hS
  · exact hr.edges e he

theorem eraseEdges (hr : RefSorted r) : RefSorted { r with borrowedBy := SortedMap.erase c r.borrowedBy } :=
  ⟨SortedMap.sorted_erase hr.borrowedBy, fun e he => hr.edges e (SortedMap.mem_of_mem_erase he), hr.borrowsFrom⟩

theorem insertBorrowsFrom (hr : RefSorted r) : RefSorted { r with borrowsFrom := SortedMap.insert p () r.borrowsFrom } :=
  ⟨hr.borrowedBy, hr.edges, SortedMap.sorted_insert hr.borrowsFrom⟩

theorem eraseBorrowsFrom (hr : RefSorted r) : RefSorted { r with borrowsFrom := SortedMap.erase p r.borrowsFrom } :=
  ⟨hr.borrowedBy, hr.edges, SortedMap.sorted_erase hr.borrowsFrom⟩

end RefSorted

/-- The edges between two references are sorted. -/
theorem WellFormed.sorted_edges (hw : g.WellFormed) : SortedMap.Sorted (g.edges p c) := by
  cases hp : SortedMap.get? p g.refs with
  | none => simpa [edges, hp] using SortedMap.sorted_nil
  | some rp =>
    rw [edges_of_get? hp]
    exact (hw.refSorted hp).sorted_edges c

/-! ### The edges of a map entry, by its key -/

theorem mem_out_iff (hw : g.WellFormed) : c ∈ g.out p ↔ ∃ r, (p, r) ∈ g.refs ∧ c ∈ r.borrowedBy.map Prod.fst := by
  simp only [← SortedMap.get?_eq_some_iff hw.sorted]
  constructor
  · intro h
    obtain ⟨r, hr⟩ := mem_ids_iff.mp (mem_ids_of_mem_out h)
    exact ⟨r, hr, out_of_get? hr ▸ h⟩
  · rintro ⟨r, hr, hc⟩
    rwa [out_of_get? hr]

theorem mem_inn_iff (hw : g.WellFormed) : p ∈ g.inn c ↔ ∃ r, (c, r) ∈ g.refs ∧ p ∈ r.borrowsFrom.map Prod.fst := by
  simp only [← SortedMap.get?_eq_some_iff hw.sorted]
  constructor
  · intro h
    obtain ⟨r, hr⟩ := mem_ids_iff.mp (mem_ids_of_mem_inn h)
    exact ⟨r, hr, inn_of_get? hr ▸ h⟩
  · rintro ⟨r, hr, hp⟩
    rwa [inn_of_get? hr]

theorem mem_edges_iff (hw : g.WellFormed) {e : EdgeKey Lbl × Loc} :
    e ∈ g.edges p c ↔ ∃ r, (p, r) ∈ g.refs ∧ ∃ S, (c, S) ∈ r.borrowedBy ∧ e ∈ S := by
  simp only [← SortedMap.get?_eq_some_iff hw.sorted]
  constructor
  · intro he
    have hp : p ∈ g.ids := mem_ids_of_mem_out (mem_out_of_mem_edges he)
    obtain ⟨r, hr⟩ := mem_ids_iff.mp hp
    rw [edges_of_get? hr] at he
    cases hc : SortedMap.get? c r.borrowedBy with
    | none => simp [hc] at he
    | some S =>
      rw [hc, Option.getD_some] at he
      exact ⟨r, hr, S, SortedMap.mem_of_get? hc, he⟩
  · rintro ⟨r, hr, S, hS, he⟩
    rw [edges_of_get? hr, (SortedMap.get?_eq_some_iff (hw.refSorted hr).borrowedBy).mpr hS]
    exact he

/-- An entry of a reference's `borrowed_by` holds its edges to that borrower. -/
theorem WellFormed.edges_eq_of_mem (hw : g.WellFormed) (hr : SortedMap.get? p g.refs = some r)
    {y : RefID × EdgeSet Loc Lbl} (hy : y ∈ r.borrowedBy) : g.edges p y.1 = y.2 := by
  rw [edges_of_get? hr, (SortedMap.get?_eq_some_iff (hw.refSorted hr).borrowedBy).mpr hy, Option.getD_some]

omit [LinearOrder Lbl] in
/-- An edge out of a reference stands in an entry of its `borrowed_by`. -/
theorem exists_of_mem_edges (hr : SortedMap.get? p g.refs = some r) {e : EdgeKey Lbl × Loc}
    (he : e ∈ g.edges p c) : ∃ y ∈ r.borrowedBy, y.1 = c ∧ e ∈ y.2 := by
  rw [edges_of_get? hr] at he
  cases hc : SortedMap.get? c r.borrowedBy with
  | none => simp [hc] at he
  | some S =>
    rw [hc, Option.getD_some] at he
    exact ⟨(c, S), SortedMap.mem_of_get? hc, rfl, he⟩

section Erase

variable (r)


theorem mem_ids_erase (hw : g.WellFormed) :
    y ∈ (⟨SortedMap.erase x g.refs⟩ : BorrowGraph Loc Lbl).ids ↔ y ∈ g.ids ∧ y ≠ x :=
  SortedMap.mem_keys_erase hw.sorted

theorem out_erase (hw : g.WellFormed) :
    (⟨SortedMap.erase x g.refs⟩ : BorrowGraph Loc Lbl).out y = if y = x then [] else g.out y := by
  unfold out
  rw [SortedMap.get?_erase hw.sorted]
  split_ifs <;> rfl

theorem inn_erase (hw : g.WellFormed) :
    (⟨SortedMap.erase x g.refs⟩ : BorrowGraph Loc Lbl).inn y = if y = x then [] else g.inn y := by
  unfold inn
  rw [SortedMap.get?_erase hw.sorted]
  split_ifs <;> rfl

theorem edges_erase (hw : g.WellFormed) :
    (⟨SortedMap.erase x g.refs⟩ : BorrowGraph Loc Lbl).edges y c = if y = x then [] else g.edges y c := by
  unfold edges
  rw [SortedMap.get?_erase hw.sorted]
  split_ifs <;> rfl

theorem WellFormed.insert (hw : g.WellFormed) (hr : RefSorted r) :
    (⟨SortedMap.insert x r g.refs⟩ : BorrowGraph Loc Lbl).WellFormed := by
  refine ⟨SortedMap.sorted_insert hw.sorted, fun e he => ?_⟩
  rcases SortedMap.mem_of_mem_insert he with rfl | he
  · exact hr
  · exact hw.refs e he

theorem WellFormed.erase (hw : g.WellFormed) : (⟨SortedMap.erase x g.refs⟩ : BorrowGraph Loc Lbl).WellFormed :=
  ⟨SortedMap.sorted_erase hw.sorted, fun e he => hw.refs e (SortedMap.mem_of_mem_erase he)⟩

end Erase

/-! ### Consequences of the invariant -/

namespace Inv

variable (h : g.Inv)
include h

/-- A borrower is a reference of the graph. -/
theorem mem_ids_of_mem_out (hc : c ∈ g.out p) : c ∈ g.ids :=
  mem_ids_of_mem_inn ((h.mirror p c).mp hc)

/-- What a reference borrows from is a reference of the graph. -/
theorem mem_ids_of_mem_inn (hp : p ∈ g.inn c) : p ∈ g.ids :=
  BorrowGraph.mem_ids_of_mem_out ((h.mirror p c).mpr hp)

theorem ne_of_mem_out (hc : c ∈ g.out p) : p ≠ c := by
  rintro rfl
  exact h.noSelf p hc

theorem ne_of_mem_inn (hp : p ∈ g.inn c) : p ≠ c :=
  h.ne_of_mem_out ((h.mirror p c).mpr hp)

end Inv

/-! ## `check_invariant` -/

omit [LinearOrder Lbl] in
/-- `edge_consistency`, read through the views: each borrower of a reference has it in its
`borrows_from`, and each reference in a `borrows_from` has the borrower in its `borrowed_by`. -/
theorem edgeConsistency_eq : g.edgeConsistency = g.refs.all fun e =>
    (e.2.borrowedBy.map Prod.fst).all (fun c => decide (e.1 ∈ g.inn c)) &&
      (e.2.borrowsFrom.map Prod.fst).all fun p => decide (e.1 ∈ g.out p) := by
  simp only [edgeConsistency]
  congr 1
  funext e
  -- the source indexes the map; an absent id fails the check, and has empty views
  congr 1
  · congr 1
    funext c
    rw [Bool.eq_iff_iff, decide_eq_true_eq]
    split
    · rename_i rc hrc
      rw [inn_of_get? hrc]
      exact SortedMap.get?_isSome_iff
    · rename_i hrc
      simp [inn, hrc]
  · congr 1
    funext p
    rw [Bool.eq_iff_iff, decide_eq_true_eq]
    split
    · rename_i rp hrp
      rw [out_of_get? hrp]
      exact SortedMap.get?_isSome_iff
    · rename_i hrp
      simp [out, hrp]

/-- **`check_invariant` checks the invariant.** On a graph whose maps are sorted, the source's
three checks hold exactly when the borrow maps mirror each other and no reference borrows from
itself. -/
theorem checkInvariant_iff (hw : g.WellFormed) : g.checkInvariant = true ↔ g.Inv := by
  -- each entry of the map is the reference its id looks up
  have hout : ∀ e ∈ g.refs, e.2.borrowedBy.map Prod.fst = g.out e.1 :=
    fun e he => (out_of_get? ((SortedMap.get?_eq_some_iff hw.sorted).mpr he)).symm
  have hinn : ∀ e ∈ g.refs, e.2.borrowsFrom.map Prod.fst = g.inn e.1 :=
    fun e he => (inn_of_get? ((SortedMap.get?_eq_some_iff hw.sorted).mpr he)).symm
  simp only [checkInvariant, idConsistency, edgeConsistency_eq, noSelfLoops, Bool.and_eq_true,
    List.all_eq_true, SortedMap.get?_isSome_iff, decide_eq_true_eq]
  constructor
  · rintro ⟨⟨-, hcons⟩, hself⟩
    refine ⟨hw, fun p c => ⟨fun hc => ?_, fun hp => ?_⟩, fun p hp => ?_⟩
    · obtain ⟨r, hr, hc⟩ := (mem_out_iff hw).mp hc
      exact (hcons (p, r) hr).1 c hc
    · obtain ⟨r, hr, hp⟩ := (mem_inn_iff hw).mp hp
      exact (hcons (c, r) hr).2 p hp
    · obtain ⟨r, hr, hp⟩ := (mem_out_iff hw).mp hp
      exact (hself (p, r) hr).1 p hp rfl
  · intro h
    refine ⟨⟨fun e he => ⟨fun c hc => ?_, fun p hp => ?_⟩, fun e he => ⟨fun c hc => ?_, fun p hp => ?_⟩⟩,
      fun e he => ⟨fun c hc => ?_, fun p hp => ?_⟩⟩
    · rw [hout e he] at hc
      exact h.mem_ids_of_mem_out hc
    · rw [hinn e he] at hp
      exact h.mem_ids_of_mem_inn hp
    · rw [hout e he] at hc
      exact (h.mirror _ _).mp hc
    · rw [hinn e he] at hp
      exact (h.mirror _ _).mpr hp
    · rw [hout e he] at hc
      exact h.ne_of_mem_out hc
    · rw [hinn e he] at hp
      exact (h.ne_of_mem_inn hp).symm

instance (r : Ref Loc Lbl) : Decidable (RefSorted r) :=
  decidable_of_iff (SortedMap.Sorted r.borrowedBy ∧ (∀ e ∈ r.borrowedBy, SortedMap.Sorted e.2) ∧
      SortedMap.Sorted r.borrowsFrom)
    ⟨fun ⟨h₁, h₂, h₃⟩ => ⟨h₁, h₂, h₃⟩, fun h => ⟨h.1, h.2, h.3⟩⟩

instance (g : BorrowGraph Loc Lbl) : Decidable g.WellFormed :=
  decidable_of_iff (SortedMap.Sorted g.refs ∧ ∀ e ∈ g.refs, RefSorted e.2)
    ⟨fun ⟨h₁, h₂⟩ => ⟨h₁, h₂⟩, fun h => ⟨h.1, h.2⟩⟩

/-- The invariant is decided by sorting and `check_invariant`. -/
instance (g : BorrowGraph Loc Lbl) : Decidable g.Inv :=
  decidable_of_iff (g.WellFormed ∧ g.checkInvariant = true)
    ⟨fun h => (checkInvariant_iff h.1).mp h.2, fun h => ⟨h.toWellFormed, (checkInvariant_iff h.toWellFormed).mpr h⟩⟩

/-! ## `new_ref` -/

omit [LinearOrder Lbl] in
theorem newRef_of_not_mem (hid : id ∉ g.ids) (m : Bool) :
    g.newRef id m = some ⟨SortedMap.insert id (Ref.new m) g.refs⟩ := by
  simp [newRef, get?_eq_none_of_not_mem hid]

/-- A new reference has no edges, so the views of every reference stay as they were. -/
theorem Inv.newRef (h : g.Inv) (hid : id ∉ g.ids) (m : Bool) :
    ∃ g', g.newRef id m = some g' ∧ g'.Inv ∧ ∀ x, x ∈ g'.ids ↔ x = id ∨ x ∈ g.ids := by
  refine ⟨_, newRef_of_not_mem hid m, ?_, fun x => mem_ids_insert g _⟩
  have hout : ∀ x, (⟨SortedMap.insert id (Ref.new m) g.refs⟩ : BorrowGraph Loc Lbl).out x = g.out x := by
    intro x
    rw [out_insert]
    split_ifs with hx
    · rw [hx, out_of_not_mem hid]
      rfl
    · rfl
  have hinn : ∀ x, (⟨SortedMap.insert id (Ref.new m) g.refs⟩ : BorrowGraph Loc Lbl).inn x = g.inn x := by
    intro x
    rw [inn_insert]
    split_ifs with hx
    · rw [hx, inn_of_not_mem hid]
      rfl
    · rfl
  refine ⟨h.toWellFormed.insert _ ⟨SortedMap.sorted_nil, fun _ he => absurd he List.not_mem_nil, SortedMap.sorted_nil⟩,
    fun p c => ?_, fun p => ?_⟩
  · rw [hout, hinn]
    exact h.mirror p c
  · rw [hout]
    exact h.noSelf p

/-! ## `add_edge` -/

omit [LinearOrder Lbl] in
theorem modifyRef_of_get? (hx : SortedMap.get? x g.refs = some r) (f : Ref Loc Lbl → Ref Loc Lbl) :
    g.modifyRef x f = some ⟨SortedMap.insert x (f r) g.refs⟩ := by
  simp [modifyRef, hx]

/-- What `add_edge` does to the views: the child becomes a borrower of the parent, and the
edge joins the edges between them unless one with its strength and path is there. -/
structure AddsEdge (g g' : BorrowGraph Loc Lbl) (p : RefID) (e : BorrowEdge Loc Lbl) (c : RefID) : Prop where
  wellFormed : g'.WellFormed
  ids_iff : ∀ x, x ∈ g'.ids ↔ x ∈ g.ids
  out_iff : ∀ x y, y ∈ g'.out x ↔ y ∈ g.out x ∨ (x = p ∧ y = c)
  inn_iff : ∀ x y, y ∈ g'.inn x ↔ y ∈ g.inn x ∨ (x = c ∧ y = p)
  edges_eq : ∀ x y, g'.edges x y = if x = p ∧ y = c then SortedMap.orInsert e.key e.loc (g.edges p c) else g.edges x y

/-- **`add_edge`** between two distinct references of a well-formed graph does not panic, and
adds the edge. -/
theorem addEdge_spec (hw : g.WellFormed) (hpc : p ≠ c) (hp : p ∈ g.ids) (hc : c ∈ g.ids) (e : BorrowEdge Loc Lbl) :
    ∃ g', g.addEdge p e c = some g' ∧ AddsEdge g g' p e c := by
  obtain ⟨rp, hrp⟩ := mem_ids_iff.mp hp
  obtain ⟨rc, hrc⟩ := mem_ids_iff.mp hc
  -- the parent's new map, and the graph after the first of the two updates
  set bb' := SortedMap.insert c (SortedMap.orInsert e.key e.loc ((SortedMap.get? c rp.borrowedBy).getD []))
    rp.borrowedBy with hbb'
  set g₁ : BorrowGraph Loc Lbl := ⟨SortedMap.insert p { rp with borrowedBy := bb' } g.refs⟩ with hg₁
  have hrc₁ : SortedMap.get? c g₁.refs = some rc := by
    rw [hg₁, SortedMap.get?_insert_ne (Ne.symm hpc), hrc]
  have hedges : g.edges p c = (SortedMap.get? c rp.borrowedBy).getD [] := edges_of_get? hrp
  have hsp : RefSorted rp := hw.refSorted hrp
  have hw₁ : g₁.WellFormed :=
    hw.insert _ (hsp.insertEdges (SortedMap.sorted_orInsert (hsp.sorted_edges c)))
  refine ⟨⟨SortedMap.insert c { rc with borrowsFrom := SortedMap.insert p () rc.borrowsFrom } g₁.refs⟩, ?_, ?_⟩
  · simp only [addEdge, if_neg hpc, modifyRef_of_get? hrp, Option.bind_eq_bind, Option.bind_some]
    exact modifyRef_of_get? hrc₁ _
  refine ⟨hw₁.insert _ (hw.refSorted hrc).insertBorrowsFrom, fun x => ?_, fun x y => ?_, fun x y => ?_, fun x y => ?_⟩
  · rw [mem_ids_insert_of_mem _ _ ((mem_ids_insert_of_mem _ _ hp).mpr hc), mem_ids_insert_of_mem _ _ hp]
  · rw [out_insert, hg₁, out_insert]
    by_cases hxc : x = c
    · subst hxc
      simp [Ne.symm hpc, out_of_get? hrc]
    · by_cases hxp : x = p
      · subst hxp
        simp [hxc, hbb', SortedMap.mem_keys_insert, out_of_get? hrp, or_comm]
      · simp [hxc, hxp]
  · rw [inn_insert, hg₁, inn_insert]
    by_cases hxc : x = c
    · subst hxc
      simp [SortedMap.mem_keys_insert, inn_of_get? hrc, or_comm]
    · by_cases hxp : x = p
      · subst hxp
        simp [hxc, inn_of_get? hrp]
      · simp [hxc, hxp]
  · rw [edges_insert, hg₁, edges_insert]
    by_cases hxc : x = c
    · subst hxc
      simp [Ne.symm hpc, edges_of_get? hrc]
    · by_cases hxp : x = p
      · subst hxp
        by_cases hyc : y = c
        · subst hyc
          simp [hxc, hbb', hedges]
        · simp [hxc, hyc, hbb', SortedMap.get?_insert_ne hyc, edges_of_get? hrp]
      · simp [hxc, hxp]

/-- The edges of a graph only grow. -/
def EdgesGrow (G G' : BorrowGraph Loc Lbl) : Prop := ∀ p c e, e ∈ G.edges p c → e ∈ G'.edges p c

omit [LinearOrder Lbl] in
theorem EdgesGrow.trans {G₁ G₂ G₃ : BorrowGraph Loc Lbl} (h₁ : EdgesGrow G₁ G₂) (h₂ : EdgesGrow G₂ G₃) :
    EdgesGrow G₁ G₃ :=
  fun p c e he => h₂ p c e (h₁ p c e he)

omit [LinearOrder Lbl] in
/-- A strength and path between two references stays as the edges grow. -/
theorem EdgesGrow.mem_keys {G G' : BorrowGraph Loc Lbl} (h : EdgesGrow G G') {k : EdgeKey Lbl}
    (hk : k ∈ (G.edges p c).map Prod.fst) : k ∈ (G'.edges p c).map Prod.fst := by
  obtain ⟨e, he, rfl⟩ := List.mem_map.mp hk
  exact List.mem_map_of_mem (h p c e he)

section Adds

variable {G G' : BorrowGraph Loc Lbl} {e : BorrowEdge Loc Lbl}

theorem AddsEdge.edgesGrow (hadd : AddsEdge G G' p e c) : EdgesGrow G G' := by
  intro x y e' he'
  rw [hadd.edges_eq]
  split_ifs with hxy
  · obtain ⟨rfl, rfl⟩ := hxy
    exact SortedMap.mem_orInsert_of_mem he'
  · exact he'

theorem AddsEdge.mem_keys (hadd : AddsEdge G G' p e c) : e.key ∈ (G'.edges p c).map Prod.fst := by
  rw [hadd.edges_eq, if_pos ⟨rfl, rfl⟩]
  exact SortedMap.mem_keys_orInsert_self

/-- The strengths and paths after `add_edge`: the old ones and the new edge's. -/
theorem AddsEdge.mem_keys_iff (hadd : AddsEdge G G' p e c) {k : EdgeKey Lbl} :
    k ∈ (G'.edges x y).map Prod.fst ↔ k ∈ (G.edges x y).map Prod.fst ∨ (x = p ∧ y = c ∧ k = e.key) := by
  rw [hadd.edges_eq]
  split_ifs with hxy
  · obtain ⟨rfl, rfl⟩ := hxy
    rw [SortedMap.mem_keys_orInsert]
    simp [or_comm]
  · constructor
    · exact Or.inl
    · rintro (hk | ⟨rfl, rfl, -⟩)
      exacts [hk, absurd ⟨rfl, rfl⟩ hxy]

end Adds

/-- `add_edge` keeps the invariant: the two views grow by the same pair, which is no self
loop. -/
theorem Inv.addsEdge (h : g.Inv) {g' : BorrowGraph Loc Lbl} {e : BorrowEdge Loc Lbl}
    (hadd : AddsEdge g g' p e c) (hpc : p ≠ c) : g'.Inv := by
  refine ⟨hadd.wellFormed, fun x y => ?_, fun x hx => ?_⟩
  · rw [hadd.out_iff, hadd.inn_iff, h.mirror x y]
    constructor
    · rintro (hxy | ⟨rfl, rfl⟩)
      exacts [Or.inl hxy, Or.inr ⟨rfl, rfl⟩]
    · rintro (hxy | ⟨rfl, rfl⟩)
      exacts [Or.inl hxy, Or.inr ⟨rfl, rfl⟩]
  · rcases (hadd.out_iff x x).mp hx with hx | ⟨rfl, rfl⟩
    · exact h.noSelf x hx
    · exact hpc rfl

theorem Inv.addEdge (h : g.Inv) (hpc : p ≠ c) (hp : p ∈ g.ids) (hc : c ∈ g.ids) (e : BorrowEdge Loc Lbl) :
    ∃ g', g.addEdge p e c = some g' ∧ g'.Inv ∧ AddsEdge g g' p e c := by
  obtain ⟨g', hg', hadd⟩ := addEdge_spec h.toWellFormed hpc hp hc e
  exact ⟨g', hg', h.addsEdge hadd hpc, hadd⟩

/-- `add_weak_borrow` and `add_weak_field_borrow` add one edge through `add_path`. -/
theorem Inv.addPath (h : g.Inv) (hpc : p ≠ c) (hp : p ∈ g.ids) (hc : c ∈ g.ids) (loc : Loc) (strong : Bool)
    (path : List Lbl) : ∃ g', g.addPath p loc strong path c = some g' ∧ g'.Inv ∧ ∀ x, x ∈ g'.ids ↔ x ∈ g.ids := by
  obtain ⟨g', hg', hinv, hadd⟩ := h.addEdge hpc hp hc ⟨strong, path, loc⟩
  exact ⟨g', hg', hinv, hadd.ids_iff⟩

end BorrowGraph

end Dijets.Move
