import Dijets.Move.InstantiationLoops

/-!
# Acquires annotations

`AcquiresVerifier::verify`: a function must list in its `acquires` annotation exactly
the resources of its module that it takes from or borrows in global storage, itself
(`MoveFrom`, `MutBorrowGlobal`, `ImmBorrowGlobal`, generic or not) or through a call to
a function of the module, and each of them must be a struct with `key`. The verifier
walks the body once, checking that what each instruction acquires is annotated
(`MISSING_ACQUIRES_ANNOTATION`) and collecting it; then each annotation, in ascending
order, must have been collected (`EXTRANEOUS_ACQUIRES_ANNOTATION`) and have `key`
(`INVALID_ACQUIRES_ANNOTATION`). A call acquires what the callee is annotated with, so
the check of one function rests on the callee's annotation, which the callee's own
check makes exact.

The sets of the source (`BTreeSet`) are lists here, read by membership only;
`handle_to_def` is an ascending association list.

On a module in bounds whose definitions have distinct handles, the verifier passes
exactly when the annotation is what the body acquires, each with key
(`verify_eq_ok_iff`).
-/

set_option autoImplicit false

namespace Dijets.Move

open Lib Lib.Check PartialVMError
open InstantiationLoopChecker (DistinctFunctionHandles)

/-- The handle `[..]!` reads past the end of the table, where the source panics; the
bounds checker has ruled that out before this verifier runs. -/
instance : Inhabited StructHandle := ⟨⟨0, 0, AbilitySet.EMPTY, []⟩⟩

instance : Inhabited StructDefInstantiation := ⟨⟨0, 0⟩⟩

/-- The body of a native function, which the verifier is never given. -/
instance : Inhabited CodeUnit := ⟨⟨0, []⟩⟩

namespace AcquiresVerifier

/-- `handle_to_def`: the definition of each function handle of the module. -/
def handleToDef (module : CompiledModule) : List (ℕ × FunctionDefinition) :=
  module.functionDefs.foldl (fun map funcDef => SortedMap.insert funcDef.function funcDef map) []

section Verifier

variable (module : CompiledModule) (currentFunction : ℕ) (annotatedAcquires : List ℕ)

/-- `error`: a failure at an instruction of the function being verified. -/
def error (status : StatusCode) (offset : ℕ) : PartialVMError :=
  (new status).atCodeOffset currentFunction offset

/-- `function_acquired_resources`: what a function of this module is annotated with,
and nothing for a function of another module. -/
def functionAcquiredResources (functionHandle : FunctionHandle) (fhIdx : ℕ) : List ℕ :=
  if functionHandle.module ≠ module.selfModuleHandleIdx then []
  else
    match SortedMap.get? fhIdx (handleToDef module) with
    | some funcDef => funcDef.acquiresGlobalResources
    | none => []

/-- `call_acquire`: what the callee acquires must all be annotated, and is acquired. -/
def callAcquire (fhIdx offset : ℕ) (actualAcquires : List ℕ) : PartialVMResult (List ℕ) := do
  let functionHandle := module.functionHandles[fhIdx]!
  let functionAcquiredResources := functionAcquiredResources module functionHandle fhIdx
  functionAcquiredResources.forM fun acquiredResource =>
    if acquiredResource ∈ annotatedAcquires then pure ()
    else throw (error currentFunction StatusCode.missingAcquiresAnnotation offset)
  pure (actualAcquires ++ functionAcquiredResources)

/-- `struct_acquire`: a resource taken or borrowed must be annotated, and is acquired. -/
def structAcquire (sdIdx offset : ℕ) (actualAcquires : List ℕ) : PartialVMResult (List ℕ) :=
  if sdIdx ∈ annotatedAcquires then pure (actualAcquires.insert sdIdx)
  else throw (error currentFunction StatusCode.missingAcquiresAnnotation offset)

/-- `verify_instruction`, at an instruction and its offset. -/
def verifyInstruction (actualAcquires : List ℕ) : Bytecode × ℕ → PartialVMResult (List ℕ)
  | (.call idx, offset) =>
    callAcquire module currentFunction annotatedAcquires idx offset actualAcquires
  | (.callGeneric idx, offset) =>
    let fi := module.functionInstantiations[idx]!
    callAcquire module currentFunction annotatedAcquires fi.handle offset actualAcquires
  | (.moveFrom idx, offset) | (.mutBorrowGlobal idx, offset) | (.immBorrowGlobal idx, offset) =>
    structAcquire currentFunction annotatedAcquires idx offset actualAcquires
  | (.moveFromGeneric idx, offset) | (.mutBorrowGlobalGeneric idx, offset)
  | (.immBorrowGlobalGeneric idx, offset) =>
    let si := module.structDefInstantiations[idx]!
    structAcquire currentFunction annotatedAcquires si.«def» offset actualAcquires
  | (_, _) => pure actualAcquires

end Verifier

/-- `AcquiresVerifier::verify`, for a function with a body. The annotations are checked
in ascending order, as the `BTreeSet` holds them. -/
def verify (module : CompiledModule) (index : ℕ) (functionDefinition : FunctionDefinition) :
    PartialVMResult Unit := do
  let annotatedAcquires := functionDefinition.acquiresGlobalResources
  let code := functionDefinition.code.get!
  let actualAcquires ←
    code.code.zipIdx.foldlM (verifyInstruction module index annotatedAcquires) []
  annotatedAcquires.dedup.mergeSort.forM fun annotation => do
    if annotation ∉ actualAcquires then
      throw (new StatusCode.extraneousAcquiresAnnotation)
    let structDef := module.structDefs[ annotation]!
    let structHandle := module.structHandles[structDef.structHandle]!
    if !structHandle.abilities.hasKey then
      throw (new StatusCode.invalidAcquiresAnnotation)

end AcquiresVerifier

/-! ## What a body acquires -/

/-- `instr` takes from or borrows, in global storage, the resource of struct
definition `r`. -/
def AccessesGlobal (m : CompiledModule) : Bytecode → ℕ → Prop
  | .moveFrom idx, r | .mutBorrowGlobal idx, r | .immBorrowGlobal idx, r => idx = r
  | .moveFromGeneric idx, r | .mutBorrowGlobalGeneric idx, r | .immBorrowGlobalGeneric idx, r =>
    ∃ si, m.structDefInstantiations[idx]? = some si ∧ si.«def» = r
  | _, _ => False

/-- `instr` calls the function of handle `h`. -/
def CallsHandle (m : CompiledModule) : Bytecode → ℕ → Prop
  | .call idx, h => idx = h
  | .callGeneric idx, h => ∃ fi, m.functionInstantiations[idx]? = some fi ∧ fi.handle = h
  | _, _ => False

/-- `gd` is the function of the module that handle `h` names. -/
def DefOfHandle (m : CompiledModule) (h : ℕ) (gd : FunctionDefinition) : Prop :=
  gd ∈ m.functionDefs ∧ gd.function = h ∧
    ∃ fh, m.functionHandles[h]? = some fh ∧ fh.module = m.selfModuleHandleIdx

/-- What `instr` acquires: the resource it takes or borrows, or those the function of
the module it calls is annotated with. -/
def InstrAcquires (m : CompiledModule) (instr : Bytecode) (r : ℕ) : Prop :=
  AccessesGlobal m instr r ∨
    ∃ h gd, CallsHandle m instr h ∧ DefOfHandle m h gd ∧ r ∈ gd.acquiresGlobalResources

/-- What a body acquires. -/
def BodyAcquires (m : CompiledModule) (code : CodeUnit) (r : ℕ) : Prop :=
  ∃ instr ∈ code.code, InstrAcquires m instr r

/-- Struct definition `r` is of a struct with `key`. -/
def HasKey (m : CompiledModule) (r : ℕ) : Prop :=
  ∃ sd sh, m.structDefs[r]? = some sd ∧ m.structHandles[sd.structHandle]? = some sh ∧
    sh.abilities.hasKey = true

/-- The annotation of `fd`, whose body is `code`, is what the body acquires, each
with key. -/
def AnnotationExact (m : CompiledModule) (fd : FunctionDefinition) (code : CodeUnit) : Prop :=
  (∀ r, r ∈ fd.acquiresGlobalResources ↔ BodyAcquires m code r) ∧
    ∀ r ∈ fd.acquiresGlobalResources, HasKey m r

namespace AcquiresVerifier

section Spec

variable {m : CompiledModule} {cf : ℕ} {ann : List ℕ}

theorem get?_handleToDef (hd : DistinctFunctionHandles m) {h : ℕ} {gd : FunctionDefinition} :
    SortedMap.get? h (handleToDef m) = some gd ↔ gd ∈ m.functionDefs ∧ gd.function = h := by
  let ps := m.functionDefs.map fun fd => (fd.function, fd)
  have hps : (ps.map Prod.fst).Nodup := by
    simpa [ps, List.map_map, Function.comp_def, DistinctFunctionHandles] using hd
  have hfold : handleToDef m = ps.foldl (fun map p => SortedMap.insert p.1 p.2 map) [] := by
    simp [handleToDef, ps, List.foldl_map]
  rw [hfold, SortedMap.get?_foldl_insert hps]
  simp only [SortedMap.get?, Option.or_none, SortedMap.get?_eq_some_iff_of_nodup hps, ps,
    List.mem_map, Prod.mk.injEq]
  constructor
  · rintro ⟨fd, hfd, rfl, rfl⟩
    exact ⟨hfd, rfl⟩
  · rintro ⟨hgd, rfl⟩
    exact ⟨gd, hgd, rfl, rfl⟩

/-- What the verifier takes a handle to acquire is the annotation of the function of
the module it names. -/
theorem mem_functionAcquiredResources (hd : DistinctFunctionHandles m) {h r : ℕ}
    {fh : FunctionHandle} (hfh : m.functionHandles[h]? = some fh) :
    r ∈ functionAcquiredResources m fh h ↔
      ∃ gd, DefOfHandle m h gd ∧ r ∈ gd.acquiresGlobalResources := by
  unfold functionAcquiredResources DefOfHandle
  by_cases hself : fh.module = m.selfModuleHandleIdx
  · have hown : ∃ fh', m.functionHandles[h]? = some fh' ∧
        fh'.module = m.selfModuleHandleIdx := ⟨fh, hfh, hself⟩
    simp only [hself, ne_eq, not_true_eq_false, if_false]
    cases hget : SortedMap.get? h (handleToDef m) with
    | none =>
      simp only [List.not_mem_nil, false_iff, not_exists, not_and]
      rintro gd ⟨hgd, hgh, -⟩ -
      rw [(get?_handleToDef hd).mpr ⟨hgd, hgh⟩] at hget
      cases hget
    | some gd =>
      obtain ⟨hgd, hgh⟩ := (get?_handleToDef hd).mp hget
      constructor
      · intro hr
        exact ⟨gd, ⟨hgd, hgh, hown⟩, hr⟩
      · -- the handles of the definitions are distinct, so the one named is `gd`
        rintro ⟨gd', ⟨hgd', hgh', -⟩, hr⟩
        rw [(get?_handleToDef hd).mpr ⟨hgd', hgh'⟩] at hget
        cases hget
        exact hr
  · simp [hself, hfh]

theorem callAcquire_eq_ok_iff {h o : ℕ} {a a' : List ℕ} :
    callAcquire m cf ann h o a = .ok a' ↔
      (∀ r ∈ functionAcquiredResources m m.functionHandles[h]! h, r ∈ ann) ∧
        a ++ functionAcquiredResources m m.functionHandles[h]! h = a' := by
  simp only [callAcquire, List.forM_eq_forM, seq_eq_ok, forM_eq_ok, pure_eq_ok]
  refine and_congr_left' (forall₂_congr fun r _ => ?_)
  split <;> simp_all [throw, throwThe, MonadExceptOf.throw]

theorem structAcquire_eq_ok_iff {s o : ℕ} {a a' : List ℕ} :
    structAcquire cf ann s o a = .ok a' ↔ s ∈ ann ∧ a.insert s = a' := by
  unfold structAcquire
  split <;> simp_all [throw, throwThe, MonadExceptOf.throw]

/-- The shape of every step of the walk: it passes exactly when the resources `A` it
acquires are annotated, and then holds what was acquired before and `A`. -/
theorem step_spec {x : PartialVMResult (List ℕ)} {A : ℕ → Prop} {a g : List ℕ}
    (hx : ∀ a', x = .ok a' ↔ (∀ r, A r → r ∈ ann) ∧ g = a')
    (hg : ∀ c, c ∈ g ↔ c ∈ a ∨ A c) :
    ((∃ a', x = .ok a') ↔ ∀ r, A r → r ∈ ann) ∧
      ∀ a', x = .ok a' → ∀ c, c ∈ a' ↔ c ∈ a ∨ A c := by
  refine ⟨⟨fun ⟨a', h⟩ => ((hx a').mp h).1, fun h => ⟨g, (hx g).mpr ⟨h, rfl⟩⟩⟩, ?_⟩
  intro a' h c
  obtain ⟨-, rfl⟩ := (hx a').mp h
  exact hg c

/-- A call through handle `h` acquires what the function of the module that `h` names
is annotated with. -/
theorem callAcquire_spec (hd : DistinctFunctionHandles m) {h o : ℕ}
    (hh : h < m.functionHandles.length) (a : List ℕ) {A : ℕ → Prop}
    (hA : ∀ r, A r ↔ ∃ gd, DefOfHandle m h gd ∧ r ∈ gd.acquiresGlobalResources) :
    ((∃ a', callAcquire m cf ann h o a = .ok a') ↔ ∀ r, A r → r ∈ ann) ∧
      ∀ a', callAcquire m cf ann h o a = .ok a' → ∀ c, c ∈ a' ↔ c ∈ a ∨ A c := by
  have hfh : m.functionHandles[h]? = some m.functionHandles[h]! := by
    simp [hh]
  have hmem : ∀ r, r ∈ functionAcquiredResources m m.functionHandles[h]! h ↔ A r :=
    fun r => (mem_functionAcquiredResources hd hfh).trans (hA r).symm
  refine step_spec (g := a ++ functionAcquiredResources m m.functionHandles[h]! h)
    (fun a' => ?_) (fun c => by rw [List.mem_append, hmem])
  rw [callAcquire_eq_ok_iff]
  exact and_congr_left' (forall_congr' fun r => by rw [hmem])

/-- Taking or borrowing the resource of struct definition `s` acquires it. -/
theorem structAcquire_spec {s o : ℕ} (a : List ℕ) {A : ℕ → Prop} (hA : ∀ r, A r ↔ s = r) :
    ((∃ a', structAcquire cf ann s o a = .ok a') ↔ ∀ r, A r → r ∈ ann) ∧
      ∀ a', structAcquire cf ann s o a = .ok a' → ∀ c, c ∈ a' ↔ c ∈ a ∨ A c := by
  refine step_spec (g := a.insert s) (fun a' => ?_) (fun c => ?_)
  · simp only [structAcquire_eq_ok_iff, hA, forall_eq']
  · rw [List.mem_insert_iff, hA, eq_comm, or_comm]

/-- **One instruction.** It passes exactly when what it acquires is annotated, and it
then adds that to what was acquired. -/
theorem verifyInstruction_spec (hb : ModuleInBounds m) (hd : DistinctFunctionHandles m)
    {typeParamCount localsCount codeLen : ℕ} {instr : Bytecode}
    (hi : (BinaryIndexedView.module m).InstrInBounds typeParamCount localsCount codeLen instr)
    (a : List ℕ) (o : ℕ) :
    ((∃ a', verifyInstruction m cf ann a (instr, o) = .ok a') ↔
        ∀ r, InstrAcquires m instr r → r ∈ ann) ∧
      ∀ a', verifyInstruction m cf ann a (instr, o) = .ok a' →
        ∀ c, c ∈ a' ↔ c ∈ a ∨ InstrAcquires m instr c := by
  cases instr
  case call h =>
    exact callAcquire_spec hd hi a fun r => by simp [InstrAcquires, AccessesGlobal, CallsHandle]
  case callGeneric idx =>
    obtain ⟨fi, hfi, -⟩ := hi
    rw [BinaryIndexedView.functionInstantiations_module] at hfi
    have hh : fi.handle < m.functionHandles.length :=
      (hb.functionInstantiations fi (List.mem_of_getElem? hfi)).1
    have hfi' : m.functionInstantiations[idx]! = fi := by
      simp [List.getElem!_eq_getElem?_getD, hfi]
    simp only [verifyInstruction, hfi']
    exact callAcquire_spec hd hh a fun r => by
      simp [InstrAcquires, AccessesGlobal, CallsHandle, hfi]
  case moveFrom s | mutBorrowGlobal s | immBorrowGlobal s =>
    exact structAcquire_spec a fun r => by simp [InstrAcquires, AccessesGlobal, CallsHandle]
  case moveFromGeneric idx | mutBorrowGlobalGeneric idx | immBorrowGlobalGeneric idx =>
    obtain ⟨si, hsi, -⟩ := hi m.structDefInstantiations rfl
    have hsi' : m.structDefInstantiations[idx]! = si := by
      simp [List.getElem!_eq_getElem?_getD, hsi]
    simp only [verifyInstruction, hsi']
    exact structAcquire_spec a fun r => by
      simp [InstrAcquires, AccessesGlobal, CallsHandle, hsi]
  -- every other instruction acquires nothing and passes
  all_goals
    refine step_spec (g := a) (fun a' => ?_) (fun c => ?_)
    · simp [verifyInstruction, InstrAcquires, AccessesGlobal, CallsHandle]
    · simp [InstrAcquires, AccessesGlobal, CallsHandle]

/-- **The walk over a body.** It passes exactly when everything the body acquires is
annotated, and has then collected what the body acquires. -/
theorem foldlM_verifyInstruction (hb : ModuleInBounds m) (hd : DistinctFunctionHandles m)
    {fd : FunctionDefinition} {code : CodeUnit} (hfd : fd ∈ m.functionDefs)
    (hcode : fd.code = some code) :
    ((∃ a, code.code.zipIdx.foldlM (verifyInstruction m cf ann) [] = .ok a) ↔
        ∀ r, BodyAcquires m code r → r ∈ ann) ∧
      ∀ a, code.code.zipIdx.foldlM (verifyInstruction m cf ann) [] = .ok a →
        ∀ c, c ∈ a ↔ BodyAcquires m code c := by
  have hstep : ∀ (a : List ℕ) (x : Bytecode × ℕ), x ∈ code.code.zipIdx →
      ((∃ a', verifyInstruction m cf ann a x = .ok a') ↔
        ∀ r, InstrAcquires m x.1 r → r ∈ ann) ∧
      ∀ a', verifyInstruction m cf ann a x = .ok a' →
        ∀ c, c ∈ a' ↔ c ∈ a ∨ InstrAcquires m x.1 c := by
    rintro a ⟨instr, o⟩ hx
    obtain ⟨_, _, hi⟩ := hb.instrInBounds hfd hcode (List.fst_mem_of_mem_zipIdx hx)
    exact verifyInstruction_spec hb hd hi a o
  have hok := foldlM_isOk_iff (fun x => ∀ r, InstrAcquires m x.1 r → r ∈ ann)
    (fun a x hx => (hstep a x hx).1) []
  rw [forall_mem_zipIdx_fst (P := fun instr => ∀ r, InstrAcquires m instr r → r ∈ ann)] at hok
  have hbody : (∀ r, BodyAcquires m code r → r ∈ ann) ↔
      ∀ instr ∈ code.code, ∀ r, InstrAcquires m instr r → r ∈ ann := by
    simp only [BodyAcquires]
    grind
  refine ⟨hok.trans hbody.symm, fun a hfold c => ?_⟩
  -- every step passes, so the accumulating rule describes what the walk collects
  have hgood := (forall_mem_zipIdx_fst
    (P := fun instr => ∀ r, InstrAcquires m instr r → r ∈ ann)).mpr (hok.mp ⟨a, hfold⟩)
  obtain ⟨a', hfold', -, hmem⟩ := foldlM_accumulate (fun _ => True) (fun s c => c ∈ s)
    (fun (x : Bytecode × ℕ) c => InstrAcquires m x.1 c)
    (fun s x hx _ => by
      obtain ⟨a', ha'⟩ := (hstep s x hx).1.mpr (hgood x hx)
      exact ⟨a', ha', trivial, (hstep s x hx).2 a' ha'⟩) [] trivial
  rw [hfold, ok_eq_ok] at hfold'
  subst hfold'
  rw [hmem c, exists_mem_zipIdx_fst (P := fun instr => InstrAcquires m instr c)]
  simp [BodyAcquires]

/-- The key check of `verify`, on an annotation that names a struct definition. -/
theorem hasKey_iff (hb : ModuleInBounds m) {r : ℕ} (hr : r < m.structDefs.length) :
    m.structHandles[m.structDefs[r]!.structHandle]!.abilities.hasKey = true ↔ HasKey m r := by
  have hsd : m.structDefs[r]? = some m.structDefs[r] := List.getElem?_eq_getElem hr
  obtain ⟨sh, hsh, -⟩ := hb.structDefs _ (List.getElem_mem hr)
  rw [BinaryIndexedView.structHandles_module] at hsh
  simp [List.getElem!_eq_getElem?_getD, HasKey, hsd, hsh]

theorem verify_eq_ok_iff (hb : ModuleInBounds m) (hd : DistinctFunctionHandles m) {index : ℕ}
    {fd : FunctionDefinition} {code : CodeUnit} (hfd : fd ∈ m.functionDefs)
    (hcode : fd.code = some code) :
    verify m index fd = .ok () ↔ AnnotationExact m fd code := by
  obtain ⟨hloop, hcollected⟩ :=
    @foldlM_verifyInstruction m index fd.acquiresGlobalResources hb hd fd code hfd hcode
  have hget : fd.code.get! = code := by simp [hcode]
  simp only [verify, hget, bind_eq_ok, List.forM_eq_forM, forM_eq_ok, List.mem_mergeSort,
    List.mem_dedup]
  simp only [throw, throwThe, MonadExceptOf.throw, Except.bind, bind, ite_not]
  -- the annotations name struct definitions
  have hnames : ∀ r ∈ fd.acquiresGlobalResources, r < m.structDefs.length := by
    obtain ⟨-, -, hacq, -⟩ := hb.functionDefs fd hfd
    exact hacq m.structDefs rfl
  constructor
  · rintro ⟨a, hfold, hann⟩
    have hall := hloop.mp ⟨a, hfold⟩
    -- each annotation was collected, and names a struct with key
    have hcheck : ∀ r ∈ fd.acquiresGlobalResources, r ∈ a ∧ HasKey m r := by
      intro r hr
      have h := hann r hr
      -- the two failing branches are closed as they arise
      split_ifs at h with hra hkey
      exact ⟨hra, (hasKey_iff hb (hnames r hr)).mp (by simpa using hkey)⟩
    refine ⟨fun r => ⟨fun hr => ?_, hall r⟩, fun r hr => (hcheck r hr).2⟩
    exact (hcollected a hfold r).mp (hcheck r hr).1
  · rintro ⟨hexact, hkey⟩
    obtain ⟨a, hfold⟩ := hloop.mpr fun r hr => (hexact r).mpr hr
    refine ⟨a, hfold, fun r hr => ?_⟩
    have hra : r ∈ a := (hcollected a hfold r).mpr ((hexact r).mp hr)
    have hk := (hasKey_iff hb (hnames r hr)).mpr (hkey r hr)
    simp only [hra, hk, Bool.not_true, if_true]
    rfl

end Spec

end AcquiresVerifier

end Dijets.Move
