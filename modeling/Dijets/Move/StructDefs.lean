import Dijets.Move.Errors
import Dijets.Move.FileFormat
import Dijets.Lib.SortedMap
import Dijets.Lib.Toposort
import Dijets.Lib.Check

/-!
# Recursive struct definitions

`RecursiveStructDefChecker::verify_module`: a module's struct definitions must not
contain themselves. The checker builds a graph on the module's struct definitions,
with an edge from a definition to every definition of this module whose handle a
field type mentions, and asks petgraph's `toposort` for an order of it.

The graph is built with two maps, modelled as ascending association lists: the
definition of each handle (`handleToDef`), and for each definition the set of the
definitions its fields mention (`Neighbors`, the set a list without repeats).
petgraph's `toposort` is a parameter, and the theorems assume of it only the contract
of a topological sort (`Toposort.SortSpec`): it answers an order exactly when the graph
has no cycle.

On a module whose definitions have distinct handles and whose field types hold no
references, which the duplication and signature checkers ensure, the checker
passes exactly when the graph of `StructEdge` has no cycle, self-loops included
(`verifyModuleImpl_eq_ok_iff`).
-/

set_option autoImplicit false

namespace Dijets.Move

open Lib PartialVMError

namespace SignatureToken

/-- The handles of the structs a type mentions, at any depth. -/
def structHandles (ty : SignatureToken) : List ℕ :=
  ty.preorderTraversal.filterMap fun t =>
    match t with
    | struct h | structInstantiation h _ => some h
    | _ => none

/-- The handles of the structs a list of types mentions. -/
def structHandlesList (tys : List SignatureToken) : List ℕ :=
  (preorderTraversalList tys).filterMap fun t =>
    match t with
    | struct h | structInstantiation h _ => some h
    | _ => none

/-- A type holds no reference, at any depth. -/
def NoReference (ty : SignatureToken) : Prop :=
  ∀ t ∈ ty.preorderTraversal, t.isReference = false

instance (ty : SignatureToken) : Decidable ty.NoReference :=
  inferInstanceAs (Decidable (∀ t ∈ ty.preorderTraversal, t.isReference = false))

@[simp] theorem structHandles_struct (h : ℕ) : (struct h).structHandles = [h] := rfl

@[simp] theorem structHandles_vector (t : SignatureToken) :
    (vector t).structHandles = t.structHandles := rfl

@[simp] theorem structHandles_structInstantiation (h : ℕ) (tys : List SignatureToken) :
    (structInstantiation h tys).structHandles = h :: structHandlesList tys := rfl

@[simp] theorem structHandlesList_nil : structHandlesList [] = [] := rfl

@[simp] theorem structHandlesList_cons (t : SignatureToken) (tys : List SignatureToken) :
    structHandlesList (t :: tys) = t.structHandles ++ structHandlesList tys := by
  simp [structHandlesList, structHandles, preorderTraversalList, List.filterMap_append]

theorem NoReference.vector {t : SignatureToken} (h : (vector t).NoReference) : t.NoReference :=
  fun t' ht' => h t' (by simp [preorderTraversal, ht'])

theorem NoReference.head {h : ℕ} {t : SignatureToken} {tys : List SignatureToken}
    (hno : (structInstantiation h (t :: tys)).NoReference) : t.NoReference :=
  fun t' ht' => hno t' (by simp [preorderTraversal, preorderTraversalList, ht'])

theorem NoReference.tail {h : ℕ} {t : SignatureToken} {tys : List SignatureToken}
    (hno : (structInstantiation h (t :: tys)).NoReference) :
    (structInstantiation h tys).NoReference := by
  intro t' ht'
  simp only [preorderTraversal, List.mem_cons] at ht'
  rcases ht' with rfl | ht'
  · rfl
  · exact hno t' (by simp [preorderTraversal, preorderTraversalList, ht'])

end SignatureToken

open SignatureToken

namespace RecursiveStructDefChecker

/-- `neighbors`: each definition's index and the set of the definitions its fields
mention. -/
abbrev Neighbors := List (ℕ × List ℕ)

/-- `StructDefGraphBuilder::new`'s `handle_to_def`: each definition's index under its
handle. -/
def handleToDef (module : CompiledModule) : List (ℕ × ℕ) :=
  module.structDefs.zipIdx.foldl (fun map p => SortedMap.insert p.1.structHandle p.2 map) []

/-- `neighbors.entry(cur_idx).or_insert_with(BTreeSet::new).insert(..)` for the
definition of handle `shIdx`, if it is this module's. -/
def addNeighbor (handleToDef : List (ℕ × ℕ)) (curIdx shIdx : ℕ) (neighbors : Neighbors) :
    Neighbors :=
  match SortedMap.get? shIdx handleToDef with
  | some structDefIdx =>
    SortedMap.insert curIdx (((SortedMap.get? curIdx neighbors).getD []).insert structDefIdx)
      neighbors
  | none => neighbors

mutual
/-- `add_signature_token`: the definitions a field type mentions are neighbours of
`curIdx`; a reference cannot be a field's type. -/
def addSignatureToken (handleToDef : List (ℕ × ℕ)) (curIdx : ℕ) :
    SignatureToken → Neighbors → PartialVMResult Neighbors
  | .bool, nb | .u8, nb | .u64, nb | .u128, nb | .address, nb | .signer, nb
  | .typeParameter _, nb => .ok nb
  | .reference _, _ | .mutableReference _, _ =>
    .error ((new .unknownInvariantViolationError).withMessage
      "Reference field when checking recursive structs")
  | .vector inner, nb => addSignatureToken handleToDef curIdx inner nb
  | .struct shIdx, nb => .ok (addNeighbor handleToDef curIdx shIdx nb)
  | .structInstantiation shIdx inners, nb =>
    addSignatureTokens handleToDef curIdx inners (addNeighbor handleToDef curIdx shIdx nb)

/-- The loop of `add_signature_token` over a struct instantiation's arguments. -/
def addSignatureTokens (handleToDef : List (ℕ × ℕ)) (curIdx : ℕ) :
    List SignatureToken → Neighbors → PartialVMResult Neighbors
  | [], nb => .ok nb
  | t :: ts, nb => do
    let nb ← addSignatureToken handleToDef curIdx t nb
    addSignatureTokens handleToDef curIdx ts nb
end

/-- `add_struct_defs`: the field types of definition `idx`. -/
def addStructDefs (module : CompiledModule) (handleToDef : List (ℕ × ℕ)) (neighbors : Neighbors)
    (idx : ℕ) : PartialVMResult Neighbors :=
  (module.structDefs[idx]!).fields.foldlM
    (fun nb field => addSignatureToken handleToDef idx field.signature nb) neighbors

/-- The edges `build` hands to `DiGraphMap::from_edges`: a definition to each of its
neighbours. -/
def edgesOf (neighbors : Neighbors) : List (ℕ × ℕ) :=
  neighbors.flatMap fun p => p.2.map fun child => (p.1, child)

/-- `StructDefGraphBuilder::build`: the graph, as its edges. -/
def build (module : CompiledModule) : PartialVMResult (List (ℕ × ℕ)) := do
  let handleToDef := handleToDef module
  let neighbors ← (List.range module.structDefs.length).foldlM
    (addStructDefs module handleToDef) []
  pure (edgesOf neighbors)

variable (toposort : List (ℕ × ℕ) → Except ℕ (List ℕ))

/-- `RecursiveStructDefChecker::verify_module_impl`. -/
def verifyModuleImpl (module : CompiledModule) : PartialVMResult Unit := do
  let graph ← build module
  match toposort graph with
  | .ok _ => .ok ()
  | .error cycle => .error (verificationError .recursiveStructDefinition .structDefinition cycle)

end RecursiveStructDefChecker

/-! ## What the checker accepts -/

/-- The struct-definition graph of a module: an edge from `s` to `t` when `t`'s handle
occurs in a field type of `s`, at any depth. -/
def StructEdge (m : CompiledModule) (s t : ℕ) : Prop :=
  ∃ sd td, m.structDefs[s]? = some sd ∧ m.structDefs[t]? = some td ∧
    ∃ field ∈ sd.fields, td.structHandle ∈ field.signature.structHandles

/-- What the duplication checker ensures of the definitions: no two share a handle. -/
def DistinctHandles (m : CompiledModule) : Prop :=
  (m.structDefs.map (·.structHandle)).Nodup

/-- What the signature checker ensures of the fields: no field type holds a reference. -/
def NoReferenceFields (m : CompiledModule) : Prop :=
  ∀ sd ∈ m.structDefs, ∀ field ∈ sd.fields, field.signature.NoReference

instance (m : CompiledModule) : Decidable (DistinctHandles m) :=
  inferInstanceAs (Decidable (m.structDefs.map (·.structHandle)).Nodup)

instance (m : CompiledModule) : Decidable (NoReferenceFields m) :=
  inferInstanceAs (Decidable (∀ sd ∈ m.structDefs, ∀ field ∈ sd.fields, field.signature.NoReference))

namespace RecursiveStructDefChecker

section Graph

variable {handleToDef : List (ℕ × ℕ)} {curIdx : ℕ}

/-- A type mentions definition `b` when it mentions a handle defined as `b`. -/
def Mentions (handleToDef : List (ℕ × ℕ)) (ty : SignatureToken) (b : ℕ) : Prop :=
  ∃ h ∈ ty.structHandles, SortedMap.get? h handleToDef = some b

theorem mem_edgesOf {nb : Neighbors} (hnb : SortedMap.Sorted nb) {a b : ℕ} :
    (a, b) ∈ edgesOf nb ↔ ∃ cs, SortedMap.get? a nb = some cs ∧ b ∈ cs := by
  simp only [edgesOf, List.mem_flatMap, List.mem_map, Prod.mk.injEq]
  constructor
  · rintro ⟨⟨a', cs⟩, hmem, b', hb', rfl, rfl⟩
    exact ⟨cs, (SortedMap.get?_eq_some_iff hnb).mpr hmem, hb'⟩
  · rintro ⟨cs, hcs, hb⟩
    exact ⟨(a, cs), (SortedMap.get?_eq_some_iff hnb).mp hcs, b, hb, rfl, rfl⟩

theorem sorted_addNeighbor {nb : Neighbors} (hnb : SortedMap.Sorted nb) (shIdx : ℕ) :
    SortedMap.Sorted (addNeighbor handleToDef curIdx shIdx nb) := by
  unfold addNeighbor
  split
  · exact SortedMap.sorted_insert hnb
  · exact hnb

theorem mem_edgesOf_addNeighbor {nb : Neighbors} (hnb : SortedMap.Sorted nb) (shIdx a b : ℕ) :
    (a, b) ∈ edgesOf (addNeighbor handleToDef curIdx shIdx nb) ↔
      (a, b) ∈ edgesOf nb ∨ (a = curIdx ∧ SortedMap.get? shIdx handleToDef = some b) := by
  rw [mem_edgesOf (sorted_addNeighbor hnb shIdx), mem_edgesOf hnb]
  unfold addNeighbor
  split
  · rename_i d hd
    by_cases ha : a = curIdx
    · -- the current definition's set gains the new neighbour
      subst ha
      cases hcur : SortedMap.get? a nb <;> simp [hd, eq_comm, or_comm]
    · simp [SortedMap.get?_insert_ne ha, ha]
  · rename_i hd
    simp [hd]

/-- The edges after a field type: those before, and the current definition to each
definition the type mentions. -/
def Adds (curIdx : ℕ) (nb nb' : Neighbors) (P : ℕ → Prop) :
    Prop :=
  SortedMap.Sorted nb' ∧ ∀ a b, (a, b) ∈ edgesOf nb' ↔ (a, b) ∈ edgesOf nb ∨ (a = curIdx ∧ P b)

mutual
theorem addSignatureToken_spec (t : SignatureToken) (nb : Neighbors)
    (hnb : SortedMap.Sorted nb) (hno : t.NoReference) :
    ∃ nb', addSignatureToken handleToDef curIdx t nb = .ok nb' ∧
      Adds curIdx nb nb' (Mentions handleToDef t) := by
  match t with
  | .bool | .u8 | .u64 | .u128 | .address | .signer | .typeParameter _ =>
    exact ⟨nb, rfl, hnb, fun a b => by simp [Mentions, structHandles, preorderTraversal]⟩
  | .reference ty =>
    exact absurd (hno (.reference ty) (by simp [preorderTraversal])) (by simp [isReference])
  | .mutableReference ty =>
    exact absurd (hno (.mutableReference ty) (by simp [preorderTraversal]))
      (by simp [isReference])
  | .vector inner =>
    obtain ⟨nb', h, hs, he⟩ := addSignatureToken_spec inner nb hnb hno.vector
    exact ⟨nb', h, hs, fun a b => by simpa [Mentions] using he a b⟩
  | .struct shIdx =>
    refine ⟨_, rfl, sorted_addNeighbor hnb shIdx, fun a b => ?_⟩
    simp [mem_edgesOf_addNeighbor hnb, Mentions]
  | .structInstantiation shIdx inners =>
    obtain ⟨nb', h, hs, he⟩ :=
      addSignatureTokens_spec inners _ (sorted_addNeighbor hnb shIdx) hno
    refine ⟨nb', h, hs, fun a b => ?_⟩
    rw [he, mem_edgesOf_addNeighbor hnb]
    simp only [Mentions, structHandles_structInstantiation, List.mem_cons, exists_eq_or_imp]
    tauto

theorem addSignatureTokens_spec {shIdx : ℕ} (ts : List SignatureToken) (nb : Neighbors)
    (hnb : SortedMap.Sorted nb) (hno : (structInstantiation shIdx ts).NoReference) :
    ∃ nb', addSignatureTokens handleToDef curIdx ts nb = .ok nb' ∧
      Adds curIdx nb nb' fun b =>
        ∃ h ∈ structHandlesList ts, SortedMap.get? h handleToDef = some b := by
  match ts with
  | [] => exact ⟨nb, rfl, hnb, fun a b => by simp⟩
  | t :: ts =>
    obtain ⟨nb₁, h₁, hs₁, he₁⟩ := addSignatureToken_spec t nb hnb hno.head
    obtain ⟨nb', h', hs', he'⟩ := addSignatureTokens_spec ts nb₁ hs₁ hno.tail
    refine ⟨nb', ?_, hs', fun a b => ?_⟩
    · simp only [addSignatureTokens, h₁]
      exact h'
    · rw [he', he₁]
      simp only [Mentions, structHandlesList_cons, List.mem_append]
      constructor
      · rintro ((h | ⟨rfl, h, hh, hb⟩) | ⟨rfl, h, hh, hb⟩)
        · exact Or.inl h
        · exact Or.inr ⟨rfl, h, Or.inl hh, hb⟩
        · exact Or.inr ⟨rfl, h, Or.inr hh, hb⟩
      · rintro (h | ⟨rfl, h, hh | hh, hb⟩)
        · exact Or.inl (Or.inl h)
        · exact Or.inl (Or.inr ⟨rfl, h, hh, hb⟩)
        · exact Or.inr ⟨rfl, h, hh, hb⟩
end

/-- The loop of `add_struct_defs` over the fields of definition `idx`. -/
theorem addStructDefs_spec {m : CompiledModule} (hno : NoReferenceFields m) {idx : ℕ}
    (hidx : idx < m.structDefs.length) (nb : Neighbors) (hnb : SortedMap.Sorted nb) :
    ∃ nb', addStructDefs m handleToDef nb idx = .ok nb' ∧
      Adds idx nb nb' fun b =>
        ∃ field ∈ (m.structDefs[idx]!).fields, Mentions handleToDef field.signature b := by
  have hfields : ∀ field ∈ (m.structDefs[idx]!).fields, field.signature.NoReference := by
    rw [getElem!_pos m.structDefs idx hidx]
    exact hno _ (List.getElem_mem hidx)
  obtain ⟨nb', h, hs, he⟩ := Check.foldlM_accumulate SortedMap.Sorted
    (fun nb c => c ∈ edgesOf nb)
    (fun (field : FieldDefinition) c => c.1 = idx ∧ Mentions handleToDef field.signature c.2)
    (fun nb field hfield hnb => by
      obtain ⟨nb', h, hs, he⟩ := @addSignatureToken_spec handleToDef idx field.signature nb hnb
        (hfields field hfield)
      exact ⟨nb', h, hs, fun c => he c.1 c.2⟩) nb hnb
  refine ⟨nb', h, hs, fun a b => ?_⟩
  rw [he (a, b)]
  simp only
  constructor
  · rintro (h | ⟨field, hfield, rfl, hb⟩)
    · exact Or.inl h
    · exact Or.inr ⟨rfl, field, hfield, hb⟩
  · rintro (h | ⟨rfl, field, hfield, hb⟩)
    · exact Or.inl h
    · exact Or.inr ⟨field, hfield, rfl, hb⟩

end Graph

section Module

variable {m : CompiledModule}

/-- With distinct handles, the definition recorded under a handle is the one of that
handle. -/
theorem get?_handleToDef (hd : DistinctHandles m) (h t : ℕ) :
    SortedMap.get? h (handleToDef m) = some t ↔
      ∃ td, m.structDefs[t]? = some td ∧ td.structHandle = h := by
  let ps := m.structDefs.zipIdx.map fun p => (p.1.structHandle, p.2)
  have hfold : handleToDef m = ps.foldl (fun map p => SortedMap.insert p.1 p.2 map) [] := by
    simp [handleToDef, ps, List.foldl_map]
  have hkeys : (ps.map Prod.fst).Nodup := by
    have hfst : ps.map Prod.fst = (m.structDefs.zipIdx.map Prod.fst).map (·.structHandle) := by
      simp only [ps, List.map_map]
      rfl
    rw [hfst, List.zipIdx_map_fst]
    exact hd
  rw [hfold, SortedMap.get?_foldl_insert hkeys]
  simp only [SortedMap.get?, Option.or_none, SortedMap.get?_eq_some_iff_of_nodup hkeys, ps,
    List.mem_map, Prod.mk.injEq, Prod.exists]
  constructor
  · rintro ⟨td, t', hmem, rfl, rfl⟩
    exact ⟨td, List.mem_zipIdx_iff_getElem?.mp hmem, rfl⟩
  · rintro ⟨td, htd, rfl⟩
    exact ⟨td, t, List.mem_zipIdx_iff_getElem?.mpr htd, rfl, rfl⟩

theorem mentions_handleToDef_iff (hd : DistinctHandles m) (ty : SignatureToken) (b : ℕ) :
    Mentions (handleToDef m) ty b ↔
      ∃ td, m.structDefs[b]? = some td ∧ td.structHandle ∈ ty.structHandles := by
  simp only [Mentions, get?_handleToDef hd]
  constructor
  · rintro ⟨h, hh, td, htd, rfl⟩
    exact ⟨td, htd, hh⟩
  · rintro ⟨td, htd, hh⟩
    exact ⟨_, hh, td, htd, rfl⟩

/-- `build` succeeds, and its edges are the struct-definition graph's. -/
theorem build_spec (hd : DistinctHandles m) (hno : NoReferenceFields m) :
    ∃ edges, build m = .ok edges ∧ ∀ a b, (a, b) ∈ edges ↔ StructEdge m a b := by
  obtain ⟨nb, h, -, he⟩ := Check.foldlM_accumulate (l := List.range m.structDefs.length)
    SortedMap.Sorted (fun nb c => c ∈ edgesOf nb)
    (fun idx c => c.1 = idx ∧
      ∃ field ∈ (m.structDefs[idx]!).fields, Mentions (handleToDef m) field.signature c.2)
    (fun nb idx hidx hnb => by
      obtain ⟨nb', h, hs, he⟩ := addStructDefs_spec hno (List.mem_range.mp hidx) nb hnb
      exact ⟨nb', h, hs, fun c => he c.1 c.2⟩) [] SortedMap.sorted_nil
  refine ⟨edgesOf nb, by simp [build, h], fun a b => ?_⟩
  rw [he (a, b)]
  simp only [edgesOf, List.flatMap_nil, List.not_mem_nil, false_or, List.mem_range]
  constructor
  · rintro ⟨idx, hidx, rfl, field, hfield, hb⟩
    rw [getElem!_pos m.structDefs _ hidx] at hfield
    obtain ⟨td, htd, hh⟩ := (mentions_handleToDef_iff hd _ _).mp hb
    exact ⟨_, td, List.getElem?_eq_getElem hidx, htd, field, hfield, hh⟩
  · rintro ⟨sd, td, hsd, htd, field, hfield, hh⟩
    obtain ⟨hidx, rfl⟩ := List.getElem?_eq_some_iff.mp hsd
    refine ⟨a, hidx, rfl, field, ?_, (mentions_handleToDef_iff hd _ _).mpr ⟨td, htd, hh⟩⟩
    rw [getElem!_pos m.structDefs _ hidx]
    exact hfield

/-- **What the checker decides.** On a module whose definitions have distinct handles
and whose fields hold no references, `verify_module` passes exactly when no struct
definition reaches itself in the struct-definition graph. -/
theorem verifyModuleImpl_eq_ok_iff {toposort : List (ℕ × ℕ) → Except ℕ (List ℕ)}
    (htopo : Toposort.SortSpec toposort) (hd : DistinctHandles m) (hno : NoReferenceFields m) :
    verifyModuleImpl toposort m = .ok () ↔ ∀ s, ¬ Relation.TransGen (StructEdge m) s s := by
  obtain ⟨edges, hbuild, hedges⟩ := build_spec hd hno
  have hrel : (fun a b => (a, b) ∈ edges) = StructEdge m := by
    funext a b
    exact propext (hedges a b)
  have hacyc : Toposort.Acyclic edges ↔ ∀ s, ¬ Relation.TransGen (StructEdge m) s s := by
    simp only [Toposort.Acyclic, Toposort.Path, hrel]
  rw [← hacyc, ← htopo.isOk_iff]
  simp only [verifyModuleImpl, hbuild, Check.bind_eq_ok, Check.ok_eq_ok, exists_eq_left']
  cases toposort edges <;> simp [Except.isOk, Except.toBool]

end Module


end RecursiveStructDefChecker

end Dijets.Move
