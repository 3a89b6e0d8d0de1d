import Dijets.Lib.SortedMap
import Mathlib.Data.List.Lex
import Mathlib.Data.Prod.Lex

/-!
# The Move borrow graph

`BorrowGraph` is the bytecode verifier's record of which references borrow from which. It
maps each reference (a `RefID`) to a `Ref`: the edges to the references that borrow from it
(`borrowed_by`, by borrower, each a set of `BorrowEdge`s), and the references it borrows from
(`borrows_from`), which the source keeps as the mirror image of the first for quick lookups.
An edge is strong (the borrower is exactly the reference at its path of field labels) or weak
(somewhere under that path), and carries a location.

`factor` adds a strong edge from a parent to a new intermediate reference and moves under it
every edge of the parent whose path extends the new one; `release` splices a reference out,
joining every edge into it with every edge out of it; `remap_refs` renames references; `join`
adds to a graph the edges of another that none of its own covers.

Maps and sets of the source are sorted association lists (`Dijets.Lib.SortedMap`), and loops
over them run in their order. A `BTreeSet<BorrowEdge>` orders and compares edges by `strong`
and `path` only (through `BorrowEdgeNoLoc`), so it is a map from those (`EdgeKey`) to the
location of the edge that went in first. A panic (an `unwrap` of `None`, a failed `assert!`)
is `none`. The `debug_checked_precondition!`s and postconditions of `check_invariant` are debug
assertions; they are left out, and the invariant they check is proved instead.

## Main definitions

* `BorrowGraph.newRef`, `addStrongBorrow`, `addStrongFieldBorrow`, `addWeakBorrow`,
  `addWeakFieldBorrow`, `release`, `remapRefs`, `join`, `leq` — the operations.
* `BorrowGraph.checkInvariant` — `check_invariant`.
-/

set_option autoImplicit false

namespace Dijets.Move

open Dijets.Lib

/-- `RefID`. -/
abbrev RefID := ℕ

/-! ## `paths.rs` -/

namespace Paths

variable {Lbl : Type} [DecidableEq Lbl]

/-- `paths::leq`: `lhs` is a prefix of `rhs`. -/
def leq (lhs rhs : List Lbl) : Bool :=
  decide (lhs.length ≤ rhs.length) && (lhs.zip rhs).all fun p => decide (p.1 = p.2)

/-- `paths::factor`: `rhs` cut after the prefix `lhs`. -/
def factor (lhs rhs : List Lbl) : Option (List Lbl × List Lbl) :=
  if leq lhs rhs then some (rhs.take lhs.length, rhs.drop lhs.length) else none

/-- `paths::append`. -/
def append (lhs rhs : List Lbl) : List Lbl := lhs ++ rhs

theorem leq_iff_isPrefix {lhs rhs : List Lbl} : leq lhs rhs = true ↔ lhs <+: rhs := by
  induction lhs generalizing rhs with
  | nil => simp [leq]
  | cons a l ih =>
    cases rhs with
    | nil => simp [leq]
    | cons b r =>
      rw [List.cons_prefix_cons, ← ih]
      simp only [leq, List.length_cons, Nat.add_le_add_iff_right, List.zip_cons_cons, List.all_cons,
        Bool.and_eq_true, decide_eq_true_eq]
      tauto

end Paths

/-! ## `references.rs` -/

/-- `BorrowEdgeNoLoc`: what the order and equality of `BorrowEdge` read. -/
structure EdgeKey (Lbl : Type) where
  strong : Bool
  path : List Lbl
deriving Repr

/-- The derived order of `BorrowEdgeNoLoc`: `strong`, then `path` in the order of `Vec`. -/
def EdgeKey.rank {Lbl : Type} (k : EdgeKey Lbl) : Bool ×ₗ List Lbl := toLex (k.strong, k.path)

instance {Lbl : Type} [LinearOrder Lbl] : LinearOrder (EdgeKey Lbl) :=
  LinearOrder.lift' EdgeKey.rank fun a b h => by
    cases a
    cases b
    simp only [EdgeKey.rank, EmbeddingLike.apply_eq_iff_eq, Prod.mk.injEq] at h
    obtain ⟨h₁, h₂⟩ := h
    subst h₁ h₂
    rfl

/-- `BorrowEdge`. -/
structure BorrowEdge (Loc Lbl : Type) where
  strong : Bool
  path : List Lbl
  loc : Loc
deriving Repr

/-- A `BTreeSet<BorrowEdge>`: the location of each edge, under what the set compares. -/
abbrev EdgeSet (Loc Lbl : Type) := List (EdgeKey Lbl × Loc)

/-- `BorrowEdges`: the edges to each borrower. -/
abbrev BorrowEdges (Loc Lbl : Type) := List (RefID × EdgeSet Loc Lbl)

/-- `Ref`. -/
structure Ref (Loc Lbl : Type) where
  borrowedBy : BorrowEdges Loc Lbl
  borrowsFrom : List (RefID × Unit)
  mutable : Bool
deriving Repr

/-- `BorrowGraph`. -/
structure BorrowGraph (Loc Lbl : Type) where
  refs : List (RefID × Ref Loc Lbl)
deriving Repr

variable {Loc Lbl : Type} [LinearOrder Lbl]

namespace BorrowEdge

def key (e : BorrowEdge Loc Lbl) : EdgeKey Lbl := ⟨e.strong, e.path⟩

/-- An edge of a set, from its entry. -/
def ofEntry (e : EdgeKey Lbl × Loc) : BorrowEdge Loc Lbl := ⟨e.1.strong, e.1.path, e.2⟩

/-- `BorrowEdge::leq`: `self` covers `other`, being the same edge or a weak edge at a prefix
of its path. -/
def leq (self other : BorrowEdge Loc Lbl) : Bool :=
  decide (self.key = other.key) || (!self.strong && Paths.leq self.path other.path)

end BorrowEdge

def Ref.new (mutable : Bool) : Ref Loc Lbl := ⟨[], [], mutable⟩

/-- One `(old, new)` of `id_map` applied to a map: an entry of `old` is taken out and put back
under `new`. -/
def renameKey {β : Type} (m : List (RefID × β)) (e : RefID × RefID) : List (RefID × β) :=
  match SortedMap.get? e.1 m with
  | some v => SortedMap.insert e.2 v (SortedMap.erase e.1 m)
  | none => m

/-- `remap_set`, `BorrowEdges::remap_refs` and the last loop of `BorrowGraph::remap_refs`: the
entries of `id_map` applied in order. -/
def renameKeys {β : Type} (idMap : List (RefID × RefID)) (m : List (RefID × β)) : List (RefID × β) :=
  idMap.foldl renameKey m

/-- `remap_set`. -/
def remapSet (set : List (RefID × Unit)) (idMap : List (RefID × RefID)) : List (RefID × Unit) :=
  renameKeys idMap set

/-- `Ref::remap_refs`. -/
def Ref.remapRefs (r : Ref Loc Lbl) (idMap : List (RefID × RefID)) : Ref Loc Lbl :=
  { r with borrowedBy := renameKeys idMap r.borrowedBy, borrowsFrom := remapSet r.borrowsFrom idMap }

/-! ## `graph.rs` -/

namespace BorrowGraph

def new : BorrowGraph Loc Lbl := ⟨[]⟩

/-- `self.0.get_mut(&id).unwrap()`, and `f` applied to the reference in place. -/
def modifyRef (g : BorrowGraph Loc Lbl) (id : RefID) (f : Ref Loc Lbl → Ref Loc Lbl) :
    Option (BorrowGraph Loc Lbl) :=
  (SortedMap.get? id g.refs).map fun r => ⟨SortedMap.insert id (f r) g.refs⟩

/-- `BorrowGraph::new_ref`: the insert, then the assertion that the id was unused. -/
def newRef (g : BorrowGraph Loc Lbl) (id : RefID) (mutable : Bool) : Option (BorrowGraph Loc Lbl) :=
  match SortedMap.get? id g.refs with
  | some _ => none
  | none => some ⟨SortedMap.insert id (Ref.new mutable) g.refs⟩

/-- `BorrowGraph::add_edge`. -/
def addEdge (g : BorrowGraph Loc Lbl) (parentId : RefID) (edge : BorrowEdge Loc Lbl) (childId : RefID) :
    Option (BorrowGraph Loc Lbl) :=
  if parentId = childId then none
  else do
    let g ← g.modifyRef parentId fun parent =>
      let edges := (SortedMap.get? childId parent.borrowedBy).getD []
      { parent with borrowedBy := SortedMap.insert childId (SortedMap.orInsert edge.key edge.loc edges) parent.borrowedBy }
    g.modifyRef childId fun child => { child with borrowsFrom := SortedMap.insert parentId () child.borrowsFrom }

/-- `BorrowGraph::add_path`. -/
def addPath (g : BorrowGraph Loc Lbl) (parentId : RefID) (loc : Loc) (strong : Bool) (path : List Lbl)
    (childId : RefID) : Option (BorrowGraph Loc Lbl) :=
  g.addEdge parentId ⟨strong, path, loc⟩ childId

/-- The edges `factor` moves: those of the parent whose path extends `path`, by borrower. -/
def needsFactored (parent : Ref Loc Lbl) (path : List Lbl) : List (RefID × BorrowEdge Loc Lbl) :=
  parent.borrowedBy.flatMap fun e =>
    ((e.2.filter fun x => Paths.leq path x.1.path).map BorrowEdge.ofEntry).map fun edge => (e.1, edge)

/-- A pass of the first loop of `factor` after `needs_factored`: the edge leaves the parent,
and a borrower left without edges leaves its map and joins `cleanup_ids`. -/
def removeFactoredEdge (acc : Ref Loc Lbl × List (RefID × Unit)) (x : RefID × BorrowEdge Loc Lbl) :
    Option (Ref Loc Lbl × List (RefID × Unit)) := do
  let (parent, cleanupIds) := acc
  let edges ← SortedMap.get? x.1 parent.borrowedBy
  -- `assert!(parent_to_child_edges.remove(parent_to_child_edge))`
  if (SortedMap.get? x.2.key edges).isNone then none
  else
    let edges := SortedMap.erase x.2.key edges
    let parent := { parent with borrowedBy := SortedMap.insert x.1 edges parent.borrowedBy }
    if edges.isEmpty then
      -- `assert!(parent.borrowed_by.0.remove(child_id).is_some())`
      match SortedMap.get? x.1 parent.borrowedBy with
      | some _ =>
        some ({ parent with borrowedBy := SortedMap.erase x.1 parent.borrowedBy },
          SortedMap.insert x.1 () cleanupIds)
      | none => none
    else some (parent, cleanupIds)

/-- The first loop of `factor` after `needs_factored`. -/
def removeFactored (parent : Ref Loc Lbl) (needs : List (RefID × BorrowEdge Loc Lbl)) :
    Option (Ref Loc Lbl × List (RefID × Unit)) :=
  needs.foldlM removeFactoredEdge (parent, [])

/-- A pass of the second loop of `factor`: a borrower left without edges from the parent no
longer borrows from it. -/
def cleanupBorrower (parentId : RefID) (g : BorrowGraph Loc Lbl) (x : RefID × Unit) :
    Option (BorrowGraph Loc Lbl) := do
  let child ← SortedMap.get? x.1 g.refs
  -- `assert!(… .borrows_from.remove(&parent_id))`
  if (SortedMap.get? parentId child.borrowsFrom).isNone then none
  else some ⟨SortedMap.insert x.1 { child with borrowsFrom := SortedMap.erase parentId child.borrowsFrom } g.refs⟩

/-- A pass of the third loop of `factor`: a moved edge now goes from the intermediate reference,
with what its path has past `path`. -/
def addFactoredEdge (path : List Lbl) (intermediateId : RefID) (g : BorrowGraph Loc Lbl)
    (x : RefID × BorrowEdge Loc Lbl) : Option (BorrowGraph Loc Lbl) := do
  let (_, suffix) ← Paths.factor path x.2.path
  g.addPath intermediateId x.2.loc x.2.strong suffix x.1

/-- `BorrowGraph::factor`. -/
def factor (g : BorrowGraph Loc Lbl) (parentId : RefID) (loc : Loc) (path : List Lbl) (intermediateId : RefID) :
    Option (BorrowGraph Loc Lbl) := do
  let parent ← SortedMap.get? parentId g.refs
  let needs := needsFactored parent path
  let (parent, cleanupIds) ← removeFactored parent needs
  let g : BorrowGraph Loc Lbl := ⟨SortedMap.insert parentId parent g.refs⟩
  let g ← cleanupIds.foldlM (cleanupBorrower parentId) g
  let g ← needs.foldlM (addFactoredEdge path intermediateId) g
  g.addPath parentId loc true path intermediateId

/-- `BorrowGraph::add_strong_borrow`. -/
def addStrongBorrow (g : BorrowGraph Loc Lbl) (loc : Loc) (parentId childId : RefID) :
    Option (BorrowGraph Loc Lbl) :=
  g.factor parentId loc [] childId

/-- `BorrowGraph::add_strong_field_borrow`. -/
def addStrongFieldBorrow (g : BorrowGraph Loc Lbl) (loc : Loc) (parentId : RefID) (field : Lbl)
    (childId : RefID) : Option (BorrowGraph Loc Lbl) :=
  g.factor parentId loc [field] childId

/-- `BorrowGraph::add_weak_borrow`. -/
def addWeakBorrow (g : BorrowGraph Loc Lbl) (loc : Loc) (parentId childId : RefID) :
    Option (BorrowGraph Loc Lbl) :=
  g.addPath parentId loc false [] childId

/-- `BorrowGraph::add_weak_field_borrow`. -/
def addWeakFieldBorrow (g : BorrowGraph Loc Lbl) (loc : Loc) (parentId : RefID) (field : Lbl)
    (childId : RefID) : Option (BorrowGraph Loc Lbl) :=
  g.addPath parentId loc false [field] childId

/-- `BorrowGraph::splice_out_intermediate`. -/
def spliceOutIntermediate (g : BorrowGraph Loc Lbl) (parentId : RefID)
    (parentToIntermediate : BorrowEdge Loc Lbl) (childId : RefID) (intermediateToChild : BorrowEdge Loc Lbl) :
    Option (BorrowGraph Loc Lbl) :=
  -- dont add in an edge if releasing from a cycle
  if parentId = childId then some g
  else
    let path := if parentToIntermediate.strong then
        Paths.append parentToIntermediate.path intermediateToChild.path
      else parentToIntermediate.path
    let strong := parentToIntermediate.strong && intermediateToChild.strong
    let loc := intermediateToChild.loc
    g.addEdge parentId ⟨strong, path, loc⟩ childId

/-- The splices of `release` for one edge into the released reference. -/
def spliceParentEdge (g : BorrowGraph Loc Lbl) (parentId : RefID) (parentEdge : BorrowEdge Loc Lbl)
    (borrowedBy : BorrowEdges Loc Lbl) : Option (BorrowGraph Loc Lbl) :=
  borrowedBy.foldlM (fun g c =>
    c.2.foldlM (fun g childEdge =>
      g.spliceOutIntermediate parentId parentEdge c.1 (BorrowEdge.ofEntry childEdge)) g) g

/-- A pass of the first loop of `release`: a parent of the released reference loses its edges to
it, and each of them is spliced with each edge out of it. -/
def releaseParent (id : RefID) (r : Ref Loc Lbl) (g : BorrowGraph Loc Lbl) (p : RefID × Unit) :
    Option (BorrowGraph Loc Lbl) := do
  let parent ← SortedMap.get? p.1 g.refs
  let parentEdges ← SortedMap.get? id parent.borrowedBy
  let g : BorrowGraph Loc Lbl :=
    ⟨SortedMap.insert p.1 { parent with borrowedBy := SortedMap.erase id parent.borrowedBy } g.refs⟩
  parentEdges.foldlM (fun g parentEdge => g.spliceParentEdge p.1 (BorrowEdge.ofEntry parentEdge) r.borrowedBy) g

/-- A pass of the second loop of `release`: a child of the released reference no longer borrows
from it. -/
def releaseChild (id : RefID) (g : BorrowGraph Loc Lbl) (childRefId : RefID) : Option (BorrowGraph Loc Lbl) :=
  g.modifyRef childRefId fun child => { child with borrowsFrom := SortedMap.erase id child.borrowsFrom }

/-- `BorrowGraph::release`. -/
def release (g : BorrowGraph Loc Lbl) (id : RefID) : Option (BorrowGraph Loc Lbl) := do
  let r ← SortedMap.get? id g.refs
  let g : BorrowGraph Loc Lbl := ⟨SortedMap.erase id g.refs⟩
  let g ← r.borrowsFrom.foldlM (releaseParent id r) g
  (r.borrowedBy.map Prod.fst).foldlM (releaseChild id) g

/-- The innermost pass of `unmatched_edges`: an edge of `other` from `parentId` to `childId`
that no edge of `self` between them covers is recorded. -/
def recordUnmatched (selfRef : Ref Loc Lbl) (parentId childId : RefID)
    (unmatched : List (RefID × BorrowEdges Loc Lbl)) (otherEdge : EdgeKey Lbl × Loc) :
    Option (List (RefID × BorrowEdges Loc Lbl)) :=
  let foundMatch := ((SortedMap.get? childId selfRef.borrowedBy).map fun parentToChild =>
    parentToChild.any fun selfEdge => (BorrowEdge.ofEntry selfEdge).leq (BorrowEdge.ofEntry otherEdge)).getD false
  if !foundMatch then
    -- `assert!(parent_id != child_id)`
    if parentId = childId then none
    else
      let byParent := (SortedMap.get? parentId unmatched).getD []
      let edges := (SortedMap.get? childId byParent).getD []
      some (SortedMap.insert parentId (SortedMap.insert childId (SortedMap.orInsert otherEdge.1 otherEdge.2 edges) byParent)
        unmatched)
  else some unmatched

/-- `BorrowGraph::unmatched_edges`: the edges of `other` that no edge of `self` between the same
references covers. -/
def unmatchedEdges (self other : BorrowGraph Loc Lbl) :
    Option (List (RefID × BorrowEdges Loc Lbl)) :=
  other.refs.foldlM (fun unmatched o => do
    -- `&self.0[parent_id]`
    let selfRef ← SortedMap.get? o.1 self.refs
    o.2.borrowedBy.foldlM (fun unmatched c => c.2.foldlM (recordUnmatched selfRef o.1 c.1) unmatched) unmatched) []

/-- `BorrowGraph::leq`: `self` covers `other`. -/
def leq (self other : BorrowGraph Loc Lbl) : Option Bool :=
  (self.unmatchedEdges other).map List.isEmpty

/-- `BorrowGraph::remap_refs`. -/
def remapRefs (g : BorrowGraph Loc Lbl) (idMap : List (RefID × RefID)) : BorrowGraph Loc Lbl :=
  ⟨renameKeys idMap (g.refs.map fun e => (e.1, e.2.remapRefs idMap))⟩

/-- The loops of `join`: each unmatched edge is added to `joined`. -/
def addUnmatched (joined : BorrowGraph Loc Lbl) (unmatched : List (RefID × BorrowEdges Loc Lbl)) :
    Option (BorrowGraph Loc Lbl) :=
  unmatched.foldlM (fun joined p =>
    p.2.foldlM (fun joined c =>
      c.2.foldlM (fun joined e => joined.addEdge p.1 (BorrowEdge.ofEntry e) c.1) joined) joined) joined

/-- `BorrowGraph::join`. -/
def join (self other : BorrowGraph Loc Lbl) : Option (BorrowGraph Loc Lbl) := do
  let unmatched ← self.unmatchedEdges other
  self.addUnmatched unmatched

/-! ### `check_invariant` -/

/-- `BorrowGraph::id_consistency`. -/
def idConsistency (g : BorrowGraph Loc Lbl) : Bool :=
  let containsId := fun id => (SortedMap.get? id g.refs).isSome
  g.refs.all fun e => (e.2.borrowedBy.map Prod.fst).all containsId && (e.2.borrowsFrom.map Prod.fst).all containsId

/-- `BorrowGraph::edge_consistency`. `self.0[child]` would panic on an absent id; `check_invariant`
evaluates this only after `id_consistency` has held. -/
def edgeConsistency (g : BorrowGraph Loc Lbl) : Bool :=
  let parentToChildConsistency := fun curParent child =>
    match SortedMap.get? child g.refs with
    | some r => (SortedMap.get? curParent r.borrowsFrom).isSome
    | none => false
  let childToParentConsistency := fun curChild parent =>
    match SortedMap.get? parent g.refs with
    | some r => (SortedMap.get? curChild r.borrowedBy).isSome
    | none => false
  g.refs.all fun e => (e.2.borrowedBy.map Prod.fst).all (parentToChildConsistency e.1) &&
    (e.2.borrowsFrom.map Prod.fst).all (childToParentConsistency e.1)

/-- `BorrowGraph::no_self_loops`. -/
def noSelfLoops (g : BorrowGraph Loc Lbl) : Bool :=
  g.refs.all fun e => (e.2.borrowedBy.map Prod.fst).all (fun toId => decide (e.1 ≠ toId)) &&
    (e.2.borrowsFrom.map Prod.fst).all fun fromId => decide (e.1 ≠ fromId)

/-- `BorrowGraph::check_invariant`. -/
def checkInvariant (g : BorrowGraph Loc Lbl) : Bool :=
  g.idConsistency && g.edgeConsistency && g.noSelfLoops

end BorrowGraph

end Dijets.Move
