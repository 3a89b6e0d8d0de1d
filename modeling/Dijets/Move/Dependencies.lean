import Dijets.Move.Acquires

/-!
# The dependency checker

`dependencies::verify_module` and `verify_script`: a module or script may use only what
the modules it depends on define, as they define it. `Context::new` files the
dependencies under their ids (leaving out one with the checked module's own id), and
under each dependency's id and a name its struct definitions' handles, the handles of
the functions the checked code may call (public and script functions, friend functions
when the checked module is a friend), and the visibility of every function. The four
checks then read those tables: every module handle but the module's own names a
dependency; every struct and function handle of another module names a definition
there, with compatible abilities and type parameters, and a function's parameters and
results compare structurally with the definition's; a function that is not
script-visible calls no script-visible function.

The source's maps are read by lookups only. Each is the list of its insertions, and a
lookup finds the last insertion under its key (`List.lookup` of the reversed list),
which is the entry the map keeps. `dependency_map` is iterated once per key, with the
module filed last under it; in which order the keys come does not matter to the
tables built from it, whose keys hold the dependency's id.
-/

set_option autoImplicit false

namespace Dijets.Move

open Lib Lib.Check PartialVMError

/-- `ModuleId`: a module by its address and name. -/
structure ModuleId where
  address : AccountAddress
  name : String
deriving DecidableEq, Repr

/-- Where the source's `[..]` and `unwrap` would panic on a missing entry; the bounds
checker and the checks run before have ruled that out. -/
instance : Inhabited AccountAddress := ⟨⟨Vector.replicate 16 0⟩⟩

instance : Inhabited ModuleHandle := ⟨⟨0, 0⟩⟩

instance : Inhabited Visibility := ⟨.private⟩

instance : Inhabited CompiledModule :=
  ⟨{ version := 0, selfModuleHandleIdx := 0, moduleHandles := [], structHandles := [],
     functionHandles := [], fieldHandles := [], friendDecls := [], structDefInstantiations := [],
     functionInstantiations := [], fieldInstantiations := [], signatures := [], identifiers := [],
     addressIdentifiers := [], constantPool := [], structDefs := [], functionDefs := [] }⟩

namespace CompiledModule

/-- `module_id_for_handle`. -/
def moduleIdForHandle (m : CompiledModule) (moduleHandle : ModuleHandle) : ModuleId :=
  ⟨m.addressIdentifiers[moduleHandle.address]!, m.identifiers[moduleHandle.name]!⟩

/-- `self_id`. -/
def selfId (m : CompiledModule) : ModuleId :=
  m.moduleIdForHandle m.moduleHandles[m.selfModuleHandleIdx]!

/-- `immediate_friends`. -/
def immediateFriends (m : CompiledModule) : List ModuleId :=
  m.friendDecls.map m.moduleIdForHandle

end CompiledModule

namespace BinaryIndexedView

/-- `module_id_for_handle`. -/
def moduleIdForHandle (v : BinaryIndexedView) (moduleHandle : ModuleHandle) : ModuleId :=
  ⟨v.addressIdentifiers[moduleHandle.address]!, v.identifiers[moduleHandle.name]!⟩

/-- `self_id`: a script has none. -/
def selfId : BinaryIndexedView → Option ModuleId
  | module m => some m.selfId
  | script _ => none

@[simp] theorem moduleIdForHandle_module (m : CompiledModule) (h : ModuleHandle) :
    (module m).moduleIdForHandle h = m.moduleIdForHandle h := rfl

@[simp] theorem selfId_module (m : CompiledModule) : (module m).selfId = some m.selfId := rfl

end BinaryIndexedView

namespace Dependencies

/-- `Context`: the checked module or script, and the tables `Context::new` builds. -/
structure Context where
  resolver : BinaryIndexedView
  dependencyMap : List (ModuleId × CompiledModule)
  structIdToHandleMap : List ((ModuleId × String) × ℕ)
  funcIdToHandleMap : List ((ModuleId × String) × ℕ)
  functionVisibilities : List (ℕ × Visibility)

/-- A lookup in a map given by its insertions: the last one under the key. -/
def get? {κ β : Type} [DecidableEq κ] (map : List (κ × β)) (key : κ) : Option β :=
  map.reverse.lookup key

/-- Whether `may_be_called`: a function of a dependency with this visibility may be
called from the checked code, whose id is `selfModule` and which the dependency
declares its friends to be among `friendModuleIds`. -/
def mayBeCalled (selfModule : Option ModuleId) (friendModuleIds : List ModuleId) :
    Visibility → Bool
  | .public | .script => true
  | .friend =>
    match selfModule with
    | some selfId => decide (selfId ∈ friendModuleIds)
    | none => false
  | .private => false

/-- `Context::new`. -/
def Context.new (resolver : BinaryIndexedView) (dependencies : List CompiledModule) : Context :=
  let selfModule := resolver.selfId
  let selfModuleIdx := resolver.selfHandleIdx
  let selfFunctionDefs := resolver.functionDefs.getD []
  let dependencyMap := (dependencies.filter fun d => some d.selfId ≠ selfModule).map
    fun d => (d.selfId, d)
  -- the map's entries, each key once with the module filed last under it
  let dependencyEntries := (dependencyMap.map Prod.fst).dedup.filterMap
    fun moduleId => (get? dependencyMap moduleId).map fun module => (moduleId, module)
  let structIdToHandleMap := dependencyEntries.flatMap fun (moduleId, module) =>
    module.structDefs.map fun structDef =>
      let structHandle := module.structHandles[structDef.structHandle]!
      let structName := module.identifiers[structHandle.name]!
      ((moduleId, structName), structDef.structHandle)
  let dependencyVisibilities := dependencyEntries.flatMap fun (moduleId, module) =>
    module.functionDefs.map fun funcDef =>
      let funcHandle := module.functionHandles[funcDef.function]!
      let funcName := module.identifiers[funcHandle.name]!
      ((moduleId, funcName), funcDef.visibility)
  let funcIdToHandleMap := dependencyEntries.flatMap fun (moduleId, module) =>
    let friendModuleIds := module.immediateFriends
    module.functionDefs.filterMap fun funcDef =>
      let funcHandle := module.functionHandles[funcDef.function]!
      let funcName := module.identifiers[funcHandle.name]!
      if mayBeCalled selfModule friendModuleIds funcDef.visibility then
        some ((moduleId, funcName), funcDef.function)
      else none
  let functionVisibilities :=
    selfFunctionDefs.map (fun functionDef => (functionDef.function, functionDef.visibility)) ++
    resolver.functionHandles.zipIdx.filterMap fun (functionHandle, idx) =>
      if some functionHandle.module = selfModuleIdx then none
      else
        let ownerModuleId :=
          resolver.moduleIdForHandle resolver.moduleHandles[functionHandle.module]!
        let functionName := resolver.identifiers[functionHandle.name]!
        -- a function that does not link gets no visibility here
        (get? dependencyVisibilities (ownerModuleId, functionName)).map fun vis => (idx, vis)
  { resolver, dependencyMap, structIdToHandleMap, funcIdToHandleMap, functionVisibilities }

/-- `verify_imported_modules`. -/
def verifyImportedModules (context : Context) : PartialVMResult Unit :=
  let selfModule := context.resolver.selfHandleIdx
  context.resolver.moduleHandles.zipIdx.forM fun (moduleHandle, idx) =>
    let moduleId := context.resolver.moduleIdForHandle moduleHandle
    if some idx ≠ selfModule ∧ (get? context.dependencyMap moduleId).isNone then
      throw (verificationError .missingDependency .moduleHandle idx)
    else pure ()

/-- `compatible_struct_abilities`: the local view may have fewer abilities. -/
def compatibleStructAbilities (localStructAbilitiesDeclaration definedStructAbilities :
    AbilitySet) : Bool :=
  localStructAbilitiesDeclaration.isSubset definedStructAbilities

/-- `compatible_type_parameter_constraints`: the local view may constrain more. -/
def compatibleTypeParameterConstraints (localTypeParameterConstraintsDeclaration
    definedTypeParameterConstraints : AbilitySet) : Bool :=
  definedTypeParameterConstraints.isSubset localTypeParameterConstraintsDeclaration

/-- `compatible_type_parameter_phantom_decl`: a local phantom parameter is phantom in
the definition. -/
def compatibleTypeParameterPhantomDecl (localTypeParameterDeclaration
    definedTypeParameter : StructTypeParameter) : Bool :=
  !localTypeParameterDeclaration.isPhantom || definedTypeParameter.isPhantom

/-- `compatible_fun_type_parameters`. -/
def compatibleFunTypeParameters (localTypeParametersDeclaration
    definedTypeParameters : List AbilitySet) : Bool :=
  localTypeParametersDeclaration.length == definedTypeParameters.length &&
    (localTypeParametersDeclaration.zip definedTypeParameters).all
      fun (localConstraints, definedConstraints) =>
        compatibleTypeParameterConstraints localConstraints definedConstraints

/-- `compatible_struct_type_parameters`. -/
def compatibleStructTypeParameters (localTypeParametersDeclaration
    definedTypeParameters : List StructTypeParameter) : Bool :=
  localTypeParametersDeclaration.length == definedTypeParameters.length &&
    (localTypeParametersDeclaration.zip definedTypeParameters).all
      fun (localTypeParameterDeclaration, definedTypeParameter) =>
        compatibleTypeParameterPhantomDecl localTypeParameterDeclaration definedTypeParameter &&
          compatibleTypeParameterConstraints localTypeParameterDeclaration.constraints
            definedTypeParameter.constraints

/-- `verify_imported_structs`. -/
def verifyImportedStructs (context : Context) : PartialVMResult Unit :=
  let selfModule := context.resolver.selfHandleIdx
  context.resolver.structHandles.zipIdx.forM fun (structHandle, idx) =>
    if some structHandle.module = selfModule then pure ()
    else
      let ownerModuleId :=
        context.resolver.moduleIdForHandle context.resolver.moduleHandles[structHandle.module]!
      let ownerModule := (get? context.dependencyMap ownerModuleId).get!
      let structName := context.resolver.identifiers[structHandle.name]!
      match get? context.structIdToHandleMap (ownerModuleId, structName) with
      | some defIdx =>
        let defHandle := ownerModule.structHandles[defIdx]!
        if !compatibleStructAbilities structHandle.abilities defHandle.abilities ||
            !compatibleStructTypeParameters structHandle.typeParameters
              defHandle.typeParameters then
          throw (verificationError .typeMismatch .structHandle idx)
        else pure ()
      | none => throw (verificationError .lookupFailed .structHandle idx)

/-- `compare_structs`: the two handles name the same struct, each in its own module's
terms. -/
def compareStructs (context : Context) (idx1 idx2 : ℕ) (defModule : CompiledModule) :
    PartialVMResult Unit :=
  let structHandle := context.resolver.structHandles[idx1]!
  let moduleHandle := context.resolver.moduleHandles[structHandle.module]!
  let moduleId := context.resolver.moduleIdForHandle moduleHandle
  let structName := context.resolver.identifiers[structHandle.name]!
  let defStructHandle := defModule.structHandles[idx2]!
  let defModuleHandle := defModule.moduleHandles[defStructHandle.module]!
  let defModuleId := defModule.moduleIdForHandle defModuleHandle
  let defStructName := defModule.identifiers[defStructHandle.name]!
  if moduleId ≠ defModuleId ∨ structName ≠ defStructName then throw (new .typeMismatch)
  else pure ()

mutual
/-- `compare_types`. The call of `compare_cross_module_signatures` on the type
arguments is written out, its length check and then its loop, so that the recursion
is structural. -/
def compareTypes (context : Context) (defModule : CompiledModule) :
    SignatureToken → SignatureToken → PartialVMResult Unit
  | .bool, .bool | .u8, .u8 | .u64, .u64 | .u128, .u128 | .address, .address
  | .signer, .signer => pure ()
  | .vector ty1, .vector ty2 => compareTypes context defModule ty1 ty2
  | .struct idx1, .struct idx2 => compareStructs context idx1 idx2 defModule
  | .structInstantiation idx1 inst1, .structInstantiation idx2 inst2 => do
    compareStructs context idx1 idx2 defModule
    if inst1.length ≠ inst2.length then throw (new .typeMismatch)
    compareTypesZip context defModule inst1 inst2
  | .reference ty1, .reference ty2 | .mutableReference ty1, .mutableReference ty2 =>
    compareTypes context defModule ty1 ty2
  | .typeParameter idx1, .typeParameter idx2 =>
    if idx1 ≠ idx2 then throw (new .typeMismatch) else pure ()
  | _, _ => throw (new .typeMismatch)

/-- The loop of `compare_cross_module_signatures` over the pairs of types. -/
def compareTypesZip (context : Context) (defModule : CompiledModule) :
    List SignatureToken → List SignatureToken → PartialVMResult Unit
  | handleType :: handleSig, defType :: defSig => do
    compareTypes context defModule handleType defType
    compareTypesZip context defModule handleSig defSig
  | _, _ => pure ()
end

/-- `compare_cross_module_signatures`. -/
def compareCrossModuleSignatures (context : Context) (handleSig defSig : List SignatureToken)
    (defModule : CompiledModule) : PartialVMResult Unit := do
  if handleSig.length ≠ defSig.length then throw (new .typeMismatch)
  compareTypesZip context defModule handleSig defSig

/-- `verify_imported_functions`. -/
def verifyImportedFunctions (context : Context) : PartialVMResult Unit :=
  let selfModule := context.resolver.selfHandleIdx
  context.resolver.functionHandles.zipIdx.forM fun (functionHandle, idx) =>
    if some functionHandle.module = selfModule then pure ()
    else
      let ownerModuleId :=
        context.resolver.moduleIdForHandle context.resolver.moduleHandles[functionHandle.module]!
      let functionName := context.resolver.identifiers[functionHandle.name]!
      let ownerModule := (get? context.dependencyMap ownerModuleId).get!
      match get? context.funcIdToHandleMap (ownerModuleId, functionName) with
      | some defIdx => do
        let defHandle := ownerModule.functionHandles[defIdx]!
        if !compatibleFunTypeParameters functionHandle.typeParameters
            defHandle.typeParameters then
          throw (verificationError .typeMismatch .functionHandle idx)
        let handleParams := context.resolver.signatures[functionHandle.parameters]!
        let defParams ← match get? context.dependencyMap ownerModuleId with
          | some module => pure module.signatures[defHandle.parameters]!
          | none => throw (verificationError .lookupFailed .functionHandle idx)
        (compareCrossModuleSignatures context handleParams defParams ownerModule).mapError
          fun e => e.atIndex .functionHandle idx
        let handleReturn := context.resolver.signatures[functionHandle.return_]!
        let defReturn ← match get? context.dependencyMap ownerModuleId with
          | some module => pure module.signatures[defHandle.return_]!
          | none => throw (verificationError .lookupFailed .functionHandle idx)
        (compareCrossModuleSignatures context handleReturn defReturn ownerModule).mapError
          fun e => e.atIndex .functionHandle idx
      | none => throw (verificationError .lookupFailed .functionHandle idx)

/-- The handle an instruction calls, if it is a call. -/
def calledHandle (context : Context) : Bytecode → Option ℕ
  | .call fhandleIdx => some fhandleIdx
  | .callGeneric finstIdx => some (context.resolver.functionInstantiations[finstIdx]!).handle
  | _ => none

/-- `verify_script_visibility_usage`: only a script-visible function calls a
script-visible one. -/
def verifyScriptVisibilityUsage (context : Context) (currentVisibility : Visibility)
    (fdefIdx : ℕ) (code : List Bytecode) : PartialVMResult Unit :=
  code.zipIdx.forM fun (instr, idx) =>
    match calledHandle context instr with
    | none => pure ()
    | some fhandleIdx =>
      let fhandleVis := (get? context.functionVisibilities fhandleIdx).get!
      match currentVisibility, fhandleVis with
      | .script, .script => pure ()
      | _, .script =>
        throw (((new .calledScriptVisibleFromNonScriptVisible).atCodeOffset fdefIdx idx).withMessage
          "script-visible functions can only be called from scripts or other script-visibile functions")
      | _, _ => pure ()

/-- `verify_all_script_visibility_usage`. -/
def verifyAllScriptVisibilityUsage (context : Context) : PartialVMResult Unit :=
  match context.resolver with
  | .module m =>
    m.functionDefs.zipIdx.forM fun (fdef, idx) =>
      match fdef.code with
      | none => pure ()
      | some code => verifyScriptVisibilityUsage context fdef.visibility idx code.code
  | .script s => verifyScriptVisibilityUsage context .script 0 s.code.code

/-- The four checks, on a context. -/
def verifyContext (context : Context) : PartialVMResult Unit := do
  verifyImportedModules context
  verifyImportedStructs context
  verifyImportedFunctions context
  verifyAllScriptVisibilityUsage context

/-- `verify_module_impl`. -/
def verifyModuleImpl (module : CompiledModule) (dependencies : List CompiledModule) :
    PartialVMResult Unit :=
  verifyContext (Context.new (.module module) dependencies)

/-- `verify_script_impl`. -/
def verifyScriptImpl (script : CompiledScript) (dependencies : List CompiledModule) :
    PartialVMResult Unit :=
  verifyContext (Context.new (.script script) dependencies)

/-! ## What the checker establishes -/

section Tables

variable {κ β : Type} [DecidableEq κ]

theorem isSome_get? {map : List (κ × β)} {key : κ} :
    (get? map key).isSome ↔ ∃ p ∈ map, p.1 = key := by
  simp only [get?, List.lookup_isSome_iff, List.mem_reverse, beq_iff_eq]
  exact exists_congr fun p => and_congr_right fun _ => eq_comm

theorem mem_of_get? {map : List (κ × β)} {key : κ} {v : β} (h : get? map key = some v) :
    (key, v) ∈ map := by
  obtain ⟨l₁, l₂, hrev, -⟩ := List.lookup_eq_some_iff.mp h
  have hmem : (key, v) ∈ map.reverse := by
    rw [hrev]
    simp
  exact List.mem_reverse.mp hmem

end Tables

section Spec

variable {resolver : BinaryIndexedView} {dependencies : List CompiledModule}

@[simp] theorem resolver_new : (Context.new resolver dependencies).resolver = resolver := rfl

theorem dependencyMap_new : (Context.new resolver dependencies).dependencyMap =
    (dependencies.filter fun d => some d.selfId ≠ resolver.selfId).map fun d => (d.selfId, d) :=
  rfl

/-- An id is filed in `dependency_map` when a dependency has it and it is not the checked
code's own. -/
theorem isSome_get?_dependencyMap {moduleId : ModuleId} :
    (get? (Context.new resolver dependencies).dependencyMap moduleId).isSome ↔
      ∃ d ∈ dependencies, d.selfId = moduleId ∧ some moduleId ≠ resolver.selfId := by
  simp only [dependencyMap_new, isSome_get?, List.mem_map, List.mem_filter, decide_eq_true_eq]
  constructor
  · rintro ⟨_, ⟨d, ⟨hd, hne⟩, rfl⟩, rfl⟩
    exact ⟨d, hd, rfl, hne⟩
  · rintro ⟨d, hd, rfl, hne⟩
    exact ⟨_, ⟨d, ⟨hd, hne⟩, rfl⟩, rfl⟩

/-- The module handles of the checked code, but its own, name dependencies other than
the checked module. -/
def ImportsDeclared (resolver : BinaryIndexedView) (dependencies : List CompiledModule) :
    Prop :=
  ∀ idx moduleHandle, resolver.moduleHandles[idx]? = some moduleHandle →
    some idx ≠ resolver.selfHandleIdx →
    ∃ d ∈ dependencies, d.selfId = resolver.moduleIdForHandle moduleHandle ∧
      some d.selfId ≠ resolver.selfId

theorem verifyImportedModules_eq_ok_iff :
    verifyImportedModules (Context.new resolver dependencies) = .ok () ↔
      ImportsDeclared resolver dependencies := by
  simp only [verifyImportedModules, List.forM_eq_forM, forM_zipIdx_eq_ok, ite_throw_eq_ok]
  simp only [resolver_new, not_and, Bool.not_eq_true, Option.isNone_eq_false_iff,
    isSome_get?_dependencyMap]
  constructor
  · intro h idx moduleHandle hmh hself
    obtain ⟨hidx, rfl⟩ := List.getElem?_eq_some_iff.mp hmh
    obtain ⟨d, hd, hid, hne⟩ := h idx hidx hself
    exact ⟨d, hd, hid, hid ▸ hne⟩
  · intro h idx hidx hself
    obtain ⟨d, hd, hid, hne⟩ := h idx _ (List.getElem?_eq_getElem hidx) hself
    exact ⟨d, hd, hid, hid ▸ hne⟩

theorem verifyContext_eq_ok_iff {context : Context} :
    verifyContext context = .ok () ↔
      verifyImportedModules context = .ok () ∧ verifyImportedStructs context = .ok () ∧
        verifyImportedFunctions context = .ok () ∧
          verifyAllScriptVisibilityUsage context = .ok () := by
  simp only [verifyContext, seq_eq_ok]

/-- A module the checker accepts imports only dependencies. -/
theorem importsDeclared_of_verifyModuleImpl {module : CompiledModule}
    (h : verifyModuleImpl module dependencies = .ok ()) :
    ImportsDeclared (.module module) dependencies :=
  Iff.mp verifyImportedModules_eq_ok_iff (Iff.mp verifyContext_eq_ok_iff h).1

end Spec

end Dependencies

end Dijets.Move
