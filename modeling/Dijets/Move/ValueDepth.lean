import Dijets.Move.StructDefs

/-!
# Values have finite depth

The recursive-struct checker looks at one module at a time and records only the
edges to the module's own definitions. That is enough for every value of every
published module to have finite depth because of how modules are published: a
module's struct handles name either a definition of that module, or one of a
module published before it. This file says so for closed types.

A closed type is a `GType`: a struct by the position of its module in the order
of publishing and the index of its definition there, with its type arguments.
A `Resolution` says which definition each handle of each module names; `Linked`
is what the duplication and dependency checkers, with the order of publishing,
establish of it. `Holds outer inner` says a value of type `outer` holds one of
type `inner` directly: a vector its elements, a struct its fields with the type
arguments put for the type parameters. Then `Holds` is well founded
(`holds_wellFounded`).

The proof is by well-founded induction over definitions, ordered by module and,
within a module, by the struct-definition graph, which the checker has found
acyclic; inside, by induction over the field's type.
-/

set_option autoImplicit false

namespace Dijets.Move

open SignatureToken

/-- A closed type of values across published modules. -/
inductive GType where
  | bool
  | u8
  | u64
  | u128
  | address
  | signer
  | vector (elem : GType)
  | struct (module idx : ℕ) (tyArgs : List GType)
deriving Repr

/-- Which definition each struct handle of each module names: module `i`'s handle `h`
names definition `t` of module `j` when `resolve i h = some (j, t)`. -/
abbrev Resolution := ℕ → ℕ → Option (ℕ × ℕ)

variable (modules : List CompiledModule) (resolve : Resolution)

/-- The struct definitions of the module at position `j`, if there is one. -/
def defsOf (j : ℕ) : List StructDefinition :=
  (modules[j]?.map (·.structDefs)).getD []

mutual
/-- A field type of one of module `i`'s structs as a closed type, with `tyArgs` for
its type parameters. -/
def instantiate (i : ℕ) (tyArgs : List GType) : SignatureToken → Option GType
  | .bool => some .bool
  | .u8 => some .u8
  | .u64 => some .u64
  | .u128 => some .u128
  | .address => some .address
  | .signer => some .signer
  | .typeParameter k => tyArgs[k]?
  | .vector t => (instantiate i tyArgs t).map .vector
  | .struct h => (resolve i h).map fun p => .struct p.1 p.2 []
  | .structInstantiation h tys => do
    let p ← resolve i h
    let us ← instantiateList i tyArgs tys
    pure (.struct p.1 p.2 us)
  | .reference _ | .mutableReference _ => none

/-- `instantiate` on each of a list of types. -/
def instantiateList (i : ℕ) (tyArgs : List GType) : List SignatureToken → Option (List GType)
  | [] => some []
  | t :: ts => do
    let u ← instantiate i tyArgs t
    let us ← instantiateList i tyArgs ts
    pure (u :: us)
end

/-- A value of type `outer` holds one of type `inner` directly. -/
inductive Holds : GType → GType → Prop
  | vector (elem : GType) : Holds (.vector elem) elem
  | field {j s : ℕ} {tyArgs : List GType} {sd : StructDefinition} {field : FieldDefinition}
      {inner : GType} :
      (defsOf modules j)[s]? = some sd → field ∈ sd.fields →
      instantiate resolve j tyArgs field.signature = some inner →
      Holds (.struct j s tyArgs) inner

/-- What linking establishes of a resolution: a module's handle names a definition
of that handle in the module itself, or a definition of a module published before
it. -/
def Linked : Prop :=
  ∀ i h j t, resolve i h = some (j, t) →
    (j = i ∧ ∃ td, (defsOf modules i)[t]? = some td ∧ td.structHandle = h) ∨ j < i

/-- Definitions ordered by module, and within a module by the struct-definition
graph: `(j, t)` is below `(i, s)` when a field of `s` mentions `t`. -/
def DefBelow (q p : ℕ × ℕ) : Prop :=
  q.1 < p.1 ∨ (q.1 = p.1 ∧ ∃ m, modules[p.1]? = some m ∧ StructEdge m p.2 q.2)

variable (toposort : List (ℕ × ℕ) → Except ℕ (List ℕ))

/-- What the checkers establish of each published module, with `toposort` for
petgraph's. -/
def Accepted (m : CompiledModule) : Prop :=
  DistinctHandles m ∧ NoReferenceFields m ∧
    RecursiveStructDefChecker.verifyModuleImpl toposort m = .ok ()

instance (m : CompiledModule) : Decidable (Accepted toposort m) :=
  inferInstanceAs (Decidable (_ ∧ _ ∧ _))

variable {modules resolve toposort}

/-- An accepted module's struct-definition graph has no cycle. -/
theorem Accepted.acyclic (htopo : Lib.Toposort.SortSpec toposort) {m : CompiledModule}
    (h : Accepted toposort m) : ∀ s, ¬ Relation.TransGen (StructEdge m) s s :=
  (RecursiveStructDefChecker.verifyModuleImpl_eq_ok_iff htopo h.1 h.2.1).mp h.2.2

/-- A module's graph without cycles goes on for ever along no path. -/
theorem wellFounded_structEdge {m : CompiledModule}
    (hacyc : ∀ s, ¬ Relation.TransGen (StructEdge m) s s) :
    WellFounded fun t s => StructEdge m s t := by
  refine Lib.Toposort.wellFounded_of_transGen_irrefl (List.range m.structDefs.length)
    (fun t s hst => ?_) (fun s hs => hacyc s (Relation.transGen_swap.mp hs))
  obtain ⟨-, td, -, htd, -⟩ := hst
  exact List.mem_range.mpr (List.getElem?_eq_some_iff.mp htd).1

theorem defBelow_wellFounded
    (hacyc : ∀ m ∈ modules, ∀ s, ¬ Relation.TransGen (StructEdge m) s s) :
    WellFounded (DefBelow modules) := by
  refine ⟨fun p => ?_⟩
  obtain ⟨i, s⟩ := p
  induction i using Nat.strong_induction_on generalizing s with
  | _ i ihi =>
    -- within module `i`, by its graph; a module that is not there has no edges
    have hwf : WellFounded fun t s => ∃ m, modules[i]? = some m ∧ StructEdge m s t := by
      cases hm : modules[i]? with
      | none => exact ⟨fun s => ⟨s, fun t ⟨m, h, _⟩ => by cases h⟩⟩
      | some m =>
        refine Subrelation.wf (fun {t s} ⟨m', h, hst⟩ => ?_)
          (wellFounded_structEdge (hacyc m (List.mem_of_getElem? hm)))
        rw [Option.some.injEq] at h
        exact h ▸ hst
    induction s using hwf.induction with
    | _ s ihs =>
      refine ⟨_, fun ⟨j, t⟩ hq => ?_⟩
      rcases hq with hj | ⟨rfl, hst⟩
      · exact ihi j hj t
      · exact ihs t hst

/-! ## Accessibility of closed types -/

theorem acc_vector {elem : GType} (h : Acc (fun inner outer => Holds modules resolve outer inner) elem) :
    Acc (fun inner outer => Holds modules resolve outer inner) (.vector elem) := by
  refine ⟨_, fun inner hinner => ?_⟩
  cases hinner
  exact h

section Instantiate

variable {i s : ℕ} {tyArgs : List GType}

mutual
/-- A field type whose structs are all below the struct it belongs to, instantiated
with accessible arguments, is accessible. -/
theorem acc_instantiate
    (hstruct : ∀ q, DefBelow modules q (i, s) → ∀ us : List GType,
      (∀ u ∈ us, Acc (fun inner outer => Holds modules resolve outer inner) u) →
      Acc (fun inner outer => Holds modules resolve outer inner) (.struct q.1 q.2 us))
    (hargs : ∀ u ∈ tyArgs, Acc (fun inner outer => Holds modules resolve outer inner) u)
    (ty : SignatureToken)
    (hbelow : ∀ h ∈ ty.structHandles, ∀ q, resolve i h = some q → DefBelow modules q (i, s))
    {σ : GType} (hσ : instantiate resolve i tyArgs ty = some σ) :
    Acc (fun inner outer => Holds modules resolve outer inner) σ := by
  match ty with
  | .bool | .u8 | .u64 | .u128 | .address | .signer =>
    simp only [instantiate, Option.some.injEq] at hσ
    subst hσ
    exact ⟨_, fun inner hinner => by cases hinner⟩
  | .typeParameter k =>
    exact hargs σ (List.mem_of_getElem? hσ)
  | .reference _ | .mutableReference _ => cases hσ
  | .vector t =>
    simp only [instantiate, Option.map_eq_some_iff] at hσ
    obtain ⟨σ', hσ', rfl⟩ := hσ
    exact acc_vector (acc_instantiate hstruct hargs t (by simpa using hbelow) hσ')
  | .struct h =>
    simp only [instantiate, Option.map_eq_some_iff] at hσ
    obtain ⟨q, hq, rfl⟩ := hσ
    exact hstruct q (hbelow h (by simp) q hq) [] (by simp)
  | .structInstantiation h tys =>
    simp only [instantiate, Option.bind_eq_bind, Option.bind_eq_some_iff, Option.pure_def,
      Option.some.injEq] at hσ
    obtain ⟨q, hq, us, hus, rfl⟩ := hσ
    refine hstruct q (hbelow h (by simp) q hq) us ?_
    exact acc_instantiateList hstruct hargs tys (fun h' hh' => hbelow h' (by simp [hh'])) hus

theorem acc_instantiateList
    (hstruct : ∀ q, DefBelow modules q (i, s) → ∀ us : List GType,
      (∀ u ∈ us, Acc (fun inner outer => Holds modules resolve outer inner) u) →
      Acc (fun inner outer => Holds modules resolve outer inner) (.struct q.1 q.2 us))
    (hargs : ∀ u ∈ tyArgs, Acc (fun inner outer => Holds modules resolve outer inner) u)
    (tys : List SignatureToken)
    (hbelow : ∀ h ∈ structHandlesList tys, ∀ q, resolve i h = some q → DefBelow modules q (i, s))
    {us : List GType} (hus : instantiateList resolve i tyArgs tys = some us) :
    ∀ u ∈ us, Acc (fun inner outer => Holds modules resolve outer inner) u := by
  match tys with
  | [] =>
    simp only [instantiateList, Option.some.injEq] at hus
    subst hus
    simp
  | t :: ts =>
    simp only [instantiateList, Option.bind_eq_bind, Option.bind_eq_some_iff, Option.pure_def,
      Option.some.injEq] at hus
    obtain ⟨u, hu, us', hus', rfl⟩ := hus
    simp only [List.mem_cons, forall_eq_or_imp]
    exact ⟨acc_instantiate hstruct hargs t (fun h hh => hbelow h (by simp [hh])) hu,
      acc_instantiateList hstruct hargs ts (fun h hh => hbelow h (by simp [hh])) hus'⟩
end

end Instantiate

/-- A field of struct `s` of module `i` mentions only definitions below `s`. -/
theorem defBelow_of_field (hlinked : Linked modules resolve) {i s : ℕ} {m : CompiledModule}
    (hm : modules[i]? = some m) {sd : StructDefinition} (hsd : m.structDefs[s]? = some sd)
    {field : FieldDefinition} (hfield : field ∈ sd.fields) :
    ∀ h ∈ field.signature.structHandles, ∀ q, resolve i h = some q → DefBelow modules q (i, s) := by
  rintro h hh ⟨j, t⟩ hq
  rcases hlinked i h j t hq with ⟨rfl, td, htd, rfl⟩ | hj
  · -- a definition of the module itself: an edge of its graph
    have htd' : m.structDefs[t]? = some td := by simpa [defsOf, hm] using htd
    exact Or.inr ⟨rfl, m, hm, sd, td, hsd, htd', field, hfield, hh⟩
  · exact Or.inl hj

theorem acc_struct (hlinked : Linked modules resolve)
    (hacyc : ∀ m ∈ modules, ∀ s, ¬ Relation.TransGen (StructEdge m) s s) :
    ∀ (p : ℕ × ℕ) (us : List GType),
      (∀ u ∈ us, Acc (fun inner outer => Holds modules resolve outer inner) u) →
      Acc (fun inner outer => Holds modules resolve outer inner) (.struct p.1 p.2 us) := by
  intro p
  induction p using (defBelow_wellFounded hacyc).induction with
  | _ p ih =>
    intro us hus
    refine ⟨_, fun inner hinner => ?_⟩
    cases hinner with
    | field hsd hfield hinst =>
      rename_i sd field
      -- the field's module is there, as it has the definition
      cases hm : modules[p.1]? with
      | none => simp [defsOf, hm] at hsd
      | some m =>
        have hsd' : m.structDefs[p.2]? = some sd := by simpa [defsOf, hm] using hsd
        exact acc_instantiate (fun q hq us hus => ih q hq us hus) hus field.signature
          (defBelow_of_field hlinked hm hsd' hfield) hinst

mutual
theorem acc_gType (hlinked : Linked modules resolve)
    (hacyc : ∀ m ∈ modules, ∀ s, ¬ Relation.TransGen (StructEdge m) s s) :
    ∀ τ : GType, Acc (fun inner outer => Holds modules resolve outer inner) τ
  | .bool | .u8 | .u64 | .u128 | .address | .signer => ⟨_, fun inner hinner => by cases hinner⟩
  | .vector elem => acc_vector (acc_gType hlinked hacyc elem)
  | .struct j s tyArgs => acc_struct hlinked hacyc (j, s) tyArgs (acc_gTypes hlinked hacyc tyArgs)

theorem acc_gTypes (hlinked : Linked modules resolve)
    (hacyc : ∀ m ∈ modules, ∀ s, ¬ Relation.TransGen (StructEdge m) s s) :
    ∀ us : List GType, ∀ u ∈ us, Acc (fun inner outer => Holds modules resolve outer inner) u
  | [] => by simp
  | u :: us => by
    simp only [List.mem_cons, forall_eq_or_imp]
    exact ⟨acc_gType hlinked hacyc u, acc_gTypes hlinked hacyc us⟩
end

/-- **Values have finite depth.** Across modules published in order and linked, each
with a struct-definition graph without cycles, no chain of values each holding the next
goes on for ever. -/
theorem holds_wellFounded (hlinked : Linked modules resolve)
    (hacyc : ∀ m ∈ modules, ∀ s, ¬ Relation.TransGen (StructEdge m) s s) :
    WellFounded fun inner outer => Holds modules resolve outer inner :=
  ⟨acc_gType hlinked hacyc⟩

/-- **No recursive struct types.** On a module whose definitions have distinct
handles and whose fields hold no references, the recursive-struct checker passes
exactly when its struct-definition graph has no cycle, self-loops included; and
across modules published in order, linked, and each accepted so, every value has
finite depth. -/
theorem struct_definitions_not_recursive {toposort : List (ℕ × ℕ) → Except ℕ (List ℕ)}
    (htopo : Lib.Toposort.SortSpec toposort) :
    (∀ m : CompiledModule, DistinctHandles m → NoReferenceFields m →
      (RecursiveStructDefChecker.verifyModuleImpl toposort m = .ok () ↔
        ∀ s, ¬ Relation.TransGen (StructEdge m) s s)) ∧
    ∀ (modules : List CompiledModule) (resolve : Resolution), Linked modules resolve →
      (∀ m ∈ modules, Accepted toposort m) →
      WellFounded fun inner outer => Holds modules resolve outer inner :=
  ⟨fun _ hd hno => RecursiveStructDefChecker.verifyModuleImpl_eq_ok_iff htopo hd hno,
    fun _ _ hlinked haccept => holds_wellFounded hlinked fun m hm => (haccept m hm).acyclic htopo⟩

/-- A module with the given struct handles and definitions, and nothing else. -/
def structModule (structHandles : List StructHandle) (structDefs : List StructDefinition) :
    CompiledModule :=
  { version := 3, selfModuleHandleIdx := 0, moduleHandles := [⟨0, 0⟩, ⟨0, 1⟩], structHandles,
    functionHandles := [], fieldHandles := [], friendDecls := [], structDefInstantiations := [],
    functionInstantiations := [], fieldInstantiations := [], signatures := [],
    identifiers := ["M", "N", "A", "B"], addressIdentifiers := [⟨Vector.replicate 16 0⟩],
    constantPool := [], structDefs, functionDefs := [] }

/-- `struct A { x: u64 }`. -/
def depthModuleA : CompiledModule :=
  structModule [⟨0, 2, AbilitySet.EMPTY, []⟩] [⟨0, .declared [⟨0, .u64⟩]⟩]

/-- `struct B<T> { a: A, t: vector<T> }`, with `A` from the module published before. -/
def depthModuleB : CompiledModule :=
  structModule [⟨1, 2, AbilitySet.EMPTY, []⟩, ⟨0, 3, AbilitySet.EMPTY, [⟨AbilitySet.EMPTY, false⟩]⟩]
    [⟨1, .declared [⟨2, .struct 0⟩, ⟨0, .vector (.typeParameter 0)⟩]⟩]

/-- `A` is the first module's, `B` the second's. -/
def depthResolve : Resolution
  | 0, 0 => some (0, 0)
  | 1, 0 => some (0, 0)
  | 1, 1 => some (1, 0)
  | _, _ => none

theorem depthResolve_linked : Linked [depthModuleA, depthModuleB] depthResolve := by
  intro i h j t hr
  unfold depthResolve at hr
  split at hr
  · obtain ⟨rfl, rfl⟩ : j = 0 ∧ t = 0 := by simpa using hr.symm
    exact Or.inl ⟨rfl, _, rfl, rfl⟩
  · obtain ⟨rfl, rfl⟩ : j = 0 ∧ t = 0 := by simpa using hr.symm
    exact Or.inr (by decide)
  · obtain ⟨rfl, rfl⟩ : j = 1 ∧ t = 0 := by simpa using hr.symm
    exact Or.inl ⟨rfl, _, rfl, rfl⟩
  · cases hr

theorem struct_definitions_not_recursive_depthModules :
    (RecursiveStructDefChecker.verifyModuleImpl Lib.Toposort.kahnSort depthModuleB = .ok () ↔
      ∀ s, ¬ Relation.TransGen (StructEdge depthModuleB) s s) ∧
    WellFounded fun inner outer => Holds [depthModuleA, depthModuleB] depthResolve outer inner :=
  ⟨(struct_definitions_not_recursive Lib.Toposort.kahnSort_spec).1 depthModuleB (by decide)
      (by decide),
    (struct_definitions_not_recursive Lib.Toposort.kahnSort_spec).2 _ _ depthResolve_linked
      (by decide)⟩

end Dijets.Move
