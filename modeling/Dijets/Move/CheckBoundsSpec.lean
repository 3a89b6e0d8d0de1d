import Dijets.Move.CheckBounds

/-!
# What the bounds checker accepts

A module passes `BoundsChecker::verify_module` exactly when it is in bounds
(`ModuleInBounds`): every index stored in its tables points into the table it
names, every field handle's offset is below its struct's field count, every
struct type has as many type arguments as its handle declares, and every
function body's branch targets, locals and type parameters are in range of the
body, with at most 256 parameters and locals.

Each check of the checker has its own "passes iff" lemma, against a predicate of
the view that says what the check is for; the module's theorem is assembled from
them. A table a script does not have is phrased as `∀ defs ∈ v.structDefs, …`,
which for a module is a fact about its table.
-/

set_option autoImplicit false

namespace Dijets.Move

open Lib.Check

namespace SignatureToken

/-- A struct type names a handle of `structHandles` with as many type parameters as
the type has arguments. -/
def StructArityOk (structHandles : List StructHandle) : SignatureToken → Prop
  | struct idx => ∃ sh, structHandles[idx]? = some sh ∧ sh.typeParameters.length = 0
  | structInstantiation idx tyArgs =>
    ∃ sh, structHandles[idx]? = some sh ∧ sh.typeParameters.length = tyArgs.length
  | bool | u8 | u64 | u128 | address | signer | vector _ | reference _ | mutableReference _
  | typeParameter _ => True

/-- Every struct type inside `ty`, at any depth, is well formed against `structHandles`. -/
def StructsInBounds (structHandles : List StructHandle) (ty : SignatureToken) : Prop :=
  ∀ t ∈ ty.preorderTraversal, t.StructArityOk structHandles

/-- Every type parameter inside `ty`, at any depth, is below `n`. -/
def TypeParametersBelow (n : ℕ) (ty : SignatureToken) : Prop :=
  ∀ idx, typeParameter idx ∈ ty.preorderTraversal → idx < n

end SignatureToken

namespace BinaryIndexedView

variable (v : BinaryIndexedView)

/-- The types of the signature at `idx`, if there is one, have their type parameters
below `n`. -/
def SignatureTypeParametersBelow (idx n : ℕ) : Prop :=
  ∀ sig ∈ v.signatures[idx]?, ∀ ty ∈ sig, ty.TypeParametersBelow n

def ModuleHandleInBounds (h : ModuleHandle) : Prop :=
  h.address < v.addressIdentifiers.length ∧ h.name < v.identifiers.length

def StructHandleInBounds (h : StructHandle) : Prop :=
  h.module < v.moduleHandles.length ∧ h.name < v.identifiers.length

/-- A function handle's indices, and the type parameters of its two signatures, which
are the function's own. -/
def FunctionHandleInBounds (h : FunctionHandle) : Prop :=
  h.module < v.moduleHandles.length ∧ h.name < v.identifiers.length ∧
    h.parameters < v.signatures.length ∧ h.return_ < v.signatures.length ∧
    v.SignatureTypeParametersBelow h.parameters h.typeParameters.length ∧
    v.SignatureTypeParametersBelow h.return_ h.typeParameters.length

/-- A field handle names a struct definition and one of its fields. -/
def FieldHandleInBounds (h : FieldHandle) : Prop :=
  ∀ defs ∈ v.structDefs, ∃ sd, defs[h.owner]? = some sd ∧ h.field < sd.fieldsCount

def StructInstantiationInBounds (i : StructDefInstantiation) : Prop :=
  (∀ defs ∈ v.structDefs, i.«def» < defs.length) ∧ i.typeParameters < v.signatures.length

def FunctionInstantiationInBounds (i : FunctionInstantiation) : Prop :=
  i.handle < v.functionHandles.length ∧ i.typeParameters < v.signatures.length

def FieldInstantiationInBounds (i : FieldInstantiation) : Prop :=
  (∀ fhs ∈ v.fieldHandles, i.handle < fhs.length) ∧ i.typeParameters < v.signatures.length

/-- A struct definition names a handle, and each declared field a name and a type
whose type parameters are the struct's own. -/
def StructDefInBounds (sd : StructDefinition) : Prop :=
  ∃ sh, v.structHandles[sd.structHandle]? = some sh ∧
    ∀ fields, sd.fieldInformation = .declared fields → ∀ field ∈ fields,
      field.name < v.identifiers.length ∧ field.signature.StructsInBounds v.structHandles ∧
      field.signature.TypeParametersBelow sh.typeParameters.length

/-- The operands of one instruction of a body with `typeParamCount` type parameters,
`localsCount` parameters and locals, and `codeLen` instructions. -/
def InstrInBounds (typeParamCount localsCount codeLen : ℕ) : Bytecode → Prop
  | .ldConst idx => idx < v.constantPool.length
  | .mutBorrowField idx | .immBorrowField idx => ∀ fhs ∈ v.fieldHandles, idx < fhs.length
  | .mutBorrowFieldGeneric idx | .immBorrowFieldGeneric idx =>
    ∀ fis ∈ v.fieldInstantiations, ∃ fi, fis[idx]? = some fi ∧
      v.SignatureTypeParametersBelow fi.typeParameters typeParamCount
  | .call idx => idx < v.functionHandles.length
  | .callGeneric idx =>
    ∃ fi, v.functionInstantiations[idx]? = some fi ∧
      v.SignatureTypeParametersBelow fi.typeParameters typeParamCount
  | .pack idx | .unpack idx | .exists idx | .immBorrowGlobal idx | .mutBorrowGlobal idx
  | .moveFrom idx | .moveTo idx => ∀ defs ∈ v.structDefs, idx < defs.length
  | .packGeneric idx | .unpackGeneric idx | .existsGeneric idx | .immBorrowGlobalGeneric idx
  | .mutBorrowGlobalGeneric idx | .moveFromGeneric idx | .moveToGeneric idx =>
    ∀ sis ∈ v.structInstantiations, ∃ si, sis[idx]? = some si ∧
      v.SignatureTypeParametersBelow si.typeParameters typeParamCount
  | .brTrue offset | .brFalse offset | .branch offset => offset < codeLen
  | .copyLoc idx | .moveLoc idx | .stLoc idx | .mutBorrowLoc idx | .immBorrowLoc idx =>
    idx < localsCount
  | .vecPack idx _ | .vecLen idx | .vecImmBorrow idx | .vecMutBorrow idx | .vecPushBack idx
  | .vecPopBack idx | .vecUnpack idx _ | .vecSwap idx =>
    idx < v.signatures.length ∧ v.SignatureTypeParametersBelow idx typeParamCount
  | .freezeRef | .pop | .ret | .ldU8 _ | .ldU64 _ | .ldU128 _ | .castU8 | .castU64
  | .castU128 | .ldTrue | .ldFalse | .readRef | .writeRef | .add | .sub | .mul | .mod
  | .div | .bitOr | .bitAnd | .xor | .shl | .shr | .or | .and | .not | .eq | .neq | .lt | .gt
  | .le | .ge | .abort | .nop => True

/-- A body's locals, their type parameters, and the operands of each instruction. -/
def CodeInBounds (typeParamCount : ℕ) (parameters : Signature) (codeUnit : CodeUnit) : Prop :=
  ∃ locals, v.signatures[codeUnit.locals]? = some locals ∧
    (∀ ty ∈ locals, ty.TypeParametersBelow typeParamCount) ∧
    ∀ instr ∈ codeUnit.code,
      v.InstrInBounds typeParamCount (locals.length + parameters.length) codeUnit.code.length instr

/-- A function definition names a handle and acquired struct definitions, and a body,
if it has one, with at most 256 parameters and locals, in bounds for the handle's
parameters and type parameters. -/
def FunctionDefInBounds (fd : FunctionDefinition) : Prop :=
  ∃ fh, v.functionHandles[fd.function]? = some fh ∧
    (∀ defs ∈ v.structDefs, ∀ r ∈ fd.acquiresGlobalResources, r < defs.length) ∧
    ∀ codeUnit ∈ fd.code, ∃ parameters, v.signatures[fh.parameters]? = some parameters ∧
      (∀ locals ∈ v.signatures[codeUnit.locals]?, locals.length + parameters.length ≤ 256) ∧
      v.CodeInBounds fh.typeParameters.length parameters codeUnit

end BinaryIndexedView

open BinaryIndexedView

/-- **A module in bounds.** Every table of the module, in the terms the checker
checks it. -/
structure ModuleInBounds (m : CompiledModule) : Prop where
  moduleHandles_ne_nil : m.moduleHandles ≠ []
  signatures : ∀ sig ∈ m.signatures, ∀ ty ∈ sig, ty.StructsInBounds m.structHandles
  constants : ∀ c ∈ m.constantPool, c.type_.StructsInBounds m.structHandles
  moduleHandles : ∀ h ∈ m.moduleHandles, (module m).ModuleHandleInBounds h
  structHandles : ∀ h ∈ m.structHandles, (module m).StructHandleInBounds h
  functionHandles : ∀ h ∈ m.functionHandles, (module m).FunctionHandleInBounds h
  fieldHandles : ∀ h ∈ m.fieldHandles, (module m).FieldHandleInBounds h
  friendDecls : ∀ h ∈ m.friendDecls, (module m).ModuleHandleInBounds h
  structInstantiations :
    ∀ i ∈ m.structDefInstantiations, (module m).StructInstantiationInBounds i
  functionInstantiations :
    ∀ i ∈ m.functionInstantiations, (module m).FunctionInstantiationInBounds i
  fieldInstantiations : ∀ i ∈ m.fieldInstantiations, (module m).FieldInstantiationInBounds i
  structDefs : ∀ sd ∈ m.structDefs, (module m).StructDefInBounds sd
  functionDefs : ∀ fd ∈ m.functionDefs, (module m).FunctionDefInBounds fd
  selfModuleHandle : m.selfModuleHandleIdx < m.moduleHandles.length

/-! ## One lemma per check -/

section Checks

variable {α : Type} (b : BoundsChecker)

@[simp] theorem checkBoundsImpl_eq_ok {pool : List α} {kind : IndexKind} {idx : ℕ} :
    checkBoundsImpl pool kind idx = .ok () ↔ idx < pool.length := by
  unfold checkBoundsImpl
  split <;> simp_all

@[simp] theorem checkBoundsImplOpt_eq_ok {pool : Option (List α)} {kind : IndexKind} {idx : ℕ} :
    checkBoundsImplOpt pool kind idx = .ok () ↔ ∀ p ∈ pool, idx < p.length := by
  cases pool <;> simp [checkBoundsImplOpt]

namespace BoundsChecker

@[simp] theorem checkCodeUnitBoundsImpl_eq_ok {pool : List α} {kind : IndexKind} {idx o : ℕ} :
    b.checkCodeUnitBoundsImpl pool kind idx o = .ok () ↔ idx < pool.length := by
  unfold checkCodeUnitBoundsImpl
  split <;> simp_all

@[simp] theorem checkCodeUnitBoundsImplOpt_eq_ok {pool : Option (List α)} {kind : IndexKind}
    {idx o : ℕ} :
    b.checkCodeUnitBoundsImplOpt pool kind idx o = .ok () ↔ ∀ p ∈ pool, idx < p.length := by
  cases pool <;> simp [checkCodeUnitBoundsImplOpt]

theorem checkTypeToken_eq_ok (t : SignatureToken) :
    b.checkTypeToken t = .ok () ↔ t.StructArityOk b.view.structHandles := by
  cases t with
  | struct idx =>
    simp only [checkTypeToken, seq_eq_ok, checkBoundsImpl_eq_ok, SignatureToken.StructArityOk]
    rw [← index_and_entry_iff]
    refine and_congr_right fun _ => ?_
    split <;> simp_all
  | structInstantiation idx tyArgs =>
    simp only [checkTypeToken, seq_eq_ok, checkBoundsImpl_eq_ok, SignatureToken.StructArityOk]
    rw [← index_and_entry_iff]
    refine and_congr_right fun _ => ?_
    split <;> simp_all
  | _ => simp [checkTypeToken, SignatureToken.StructArityOk]

theorem checkType_eq_ok (ty : SignatureToken) :
    b.checkType ty = .ok () ↔ ty.StructsInBounds b.view.structHandles := by
  simp only [checkType, List.forM_eq_forM, forM_eq_ok, checkTypeToken_eq_ok, SignatureToken.StructsInBounds]

theorem checkTypeParameterToken_eq_ok (n : ℕ) (t : SignatureToken) :
    checkTypeParameterToken n t = .ok () ↔ ∀ idx, t = .typeParameter idx → idx < n := by
  cases t with
  | typeParameter idx =>
    simp only [checkTypeParameterToken, SignatureToken.typeParameter.injEq, forall_eq']
    split <;> simp_all
  | _ => simp [checkTypeParameterToken]

theorem checkTypeParameter_eq_ok (ty : SignatureToken) (n : ℕ) :
    checkTypeParameter ty n = .ok () ↔ ty.TypeParametersBelow n := by
  simp only [checkTypeParameter, List.forM_eq_forM, forM_eq_ok, checkTypeParameterToken_eq_ok,
    SignatureToken.TypeParametersBelow]
  constructor
  · intro h idx hmem
    exact h _ hmem idx rfl
  · rintro h t hmem idx rfl
    exact h idx hmem

theorem checkSignatureTypeParameters_eq_ok (idx n : ℕ) :
    b.checkSignatureTypeParameters idx n = .ok () ↔
      b.view.SignatureTypeParametersBelow idx n := by
  unfold checkSignatureTypeParameters SignatureTypeParametersBelow
  split <;> simp_all [checkTypeParameter_eq_ok]

theorem checkSignature_eq_ok (sig : Signature) :
    b.checkSignature sig = .ok () ↔ ∀ ty ∈ sig, ty.StructsInBounds b.view.structHandles := by
  simp only [checkSignature, List.forM_eq_forM, forM_eq_ok, checkType_eq_ok]

theorem checkModuleHandle_eq_ok (h : ModuleHandle) :
    b.checkModuleHandle h = .ok () ↔ b.view.ModuleHandleInBounds h := by
  simp [checkModuleHandle, ModuleHandleInBounds]

theorem checkStructHandle_eq_ok (h : StructHandle) :
    b.checkStructHandle h = .ok () ↔ b.view.StructHandleInBounds h := by
  simp [checkStructHandle, StructHandleInBounds]

theorem checkFunctionHandle_eq_ok (h : FunctionHandle) :
    b.checkFunctionHandle h = .ok () ↔ b.view.FunctionHandleInBounds h := by
  simp only [checkFunctionHandle, seq_eq_ok, checkBoundsImpl_eq_ok,
    checkSignatureTypeParameters_eq_ok, FunctionHandleInBounds]

theorem checkFieldHandle_eq_ok (h : FieldHandle) :
    b.checkFieldHandle h = .ok () ↔ b.view.FieldHandleInBounds h := by
  unfold checkFieldHandle FieldHandleInBounds
  cases b.view.structDefs with
  | none => simp [checkBoundsImplOpt]
  | some defs =>
    simp only [seq_eq_ok, checkBoundsImplOpt_eq_ok, Option.bind_some, Option.mem_def,
      Option.some.injEq, forall_eq']
    rw [← index_and_entry_iff]
    refine and_congr_right fun _ => ?_
    split <;> simp_all

theorem checkStructInstantiation_eq_ok (i : StructDefInstantiation) :
    b.checkStructInstantiation i = .ok () ↔ b.view.StructInstantiationInBounds i := by
  simp [checkStructInstantiation, StructInstantiationInBounds]

theorem checkFunctionInstantiation_eq_ok (i : FunctionInstantiation) :
    b.checkFunctionInstantiation i = .ok () ↔ b.view.FunctionInstantiationInBounds i := by
  simp [checkFunctionInstantiation, FunctionInstantiationInBounds]

theorem checkFieldInstantiation_eq_ok (i : FieldInstantiation) :
    b.checkFieldInstantiation i = .ok () ↔ b.view.FieldInstantiationInBounds i := by
  simp [checkFieldInstantiation, FieldInstantiationInBounds]

theorem checkStructDef_eq_ok (sd : StructDefinition) :
    b.checkStructDef sd = .ok () ↔ b.view.StructDefInBounds sd := by
  simp only [checkStructDef, seq_eq_ok, checkBoundsImpl_eq_ok, StructDefInBounds]
  rw [← index_and_entry_iff]
  refine and_congr_right fun hlt => ?_
  -- the handle is there, so the fields' type parameters are its own
  simp only [List.getElem?_eq_getElem hlt, Option.some.injEq, forall_eq']
  split
  · rename_i fields hfields
    simp only [hfields, StructFieldInformation.declared.injEq, forall_eq', List.forM_eq_forM,
      forM_eq_ok, seq_eq_ok, checkBoundsImpl_eq_ok, checkType_eq_ok, checkTypeParameter_eq_ok]
  · rename_i hfields
    simp [hfields]

@[simp] theorem getLocals_eq_ok (codeUnit : CodeUnit) (locals : Signature) :
    b.getLocals codeUnit = .ok locals ↔ b.view.signatures[codeUnit.locals]? = some locals := by
  unfold getLocals
  split <;> simp_all

theorem getLocals_bind_eq_ok {β : Type} (codeUnit : CodeUnit) (f : Signature → PartialVMResult β)
    (r : β) : (b.getLocals codeUnit >>= f) = .ok r ↔
      ∃ locals, b.view.signatures[codeUnit.locals]? = some locals ∧ f locals = .ok r := by
  simp only [bind_eq_ok, getLocals_eq_ok]

theorem checkInstruction_eq_ok (n l c o : ℕ) (instr : Bytecode) :
    b.checkInstruction n l c o instr = .ok () ↔ b.view.InstrInBounds n l c instr := by
  cases instr
  -- an instantiation in a table of the view, then the type parameters of its signature
  case mutBorrowFieldGeneric | immBorrowFieldGeneric | packGeneric | unpackGeneric
    | existsGeneric | immBorrowGlobalGeneric | mutBorrowGlobalGeneric | moveFromGeneric
    | moveToGeneric =>
    simp only [checkInstruction, InstrInBounds, seq_eq_ok, checkCodeUnitBoundsImplOpt_eq_ok]
    rw [← optIndex_and_entry_iff]
    refine and_congr_right fun _ => ?_
    split
    · simp_all [checkSignatureTypeParameters_eq_ok]
    · rename_i hnone
      simp [hnone]
  case callGeneric =>
    simp only [checkInstruction, InstrInBounds, seq_eq_ok, checkCodeUnitBoundsImpl_eq_ok]
    rw [← index_and_entry_iff]
    refine and_congr_right fun _ => ?_
    split <;> simp_all [checkSignatureTypeParameters_eq_ok]
  -- a branch target or a local, checked against the body
  case brTrue | brFalse | branch | copyLoc | moveLoc | stLoc | mutBorrowLoc | immBorrowLoc =>
    simp only [checkInstruction, InstrInBounds]
    split <;> simp_all
  all_goals simp [checkInstruction, InstrInBounds, checkSignatureTypeParameters_eq_ok]

theorem checkCode_eq_ok (codeUnit : CodeUnit) (typeParameters : List AbilitySet)
    (parameters : Signature) :
    b.checkCode codeUnit typeParameters parameters = .ok () ↔
      b.view.CodeInBounds typeParameters.length parameters codeUnit := by
  simp only [checkCode, seq_eq_ok, checkBoundsImpl_eq_ok, getLocals_bind_eq_ok,
    List.forM_eq_forM, forM_eq_ok, checkTypeParameter_eq_ok, checkInstruction_eq_ok,
    forall_mem_zipIdx_fst, CodeInBounds]
  constructor
  · rintro ⟨-, locals, hlocals, hbody⟩
    exact ⟨locals, hlocals, hbody⟩
  · rintro ⟨locals, hlocals, hbody⟩
    exact ⟨(List.getElem?_eq_some_iff.mp hlocals).1, locals, hlocals, hbody⟩

/-- The body's check, once the handle's parameters are known to be in range; the
checker's own order ensures that, as it checks the handles first. -/
theorem checkFunctionDef_eq_ok
    (hparams : ∀ h ∈ b.view.functionHandles, h.parameters < b.view.signatures.length)
    (idx : ℕ) (fd : FunctionDefinition) :
    b.checkFunctionDef idx fd = .ok () ↔ b.view.FunctionDefInBounds fd := by
  simp only [checkFunctionDef, seq_eq_ok, checkBoundsImpl_eq_ok, List.forM_eq_forM, forM_eq_ok,
    checkBoundsImplOpt_eq_ok, FunctionDefInBounds]
  rw [← index_and_entry_iff]
  refine and_congr_right fun hlt => ?_
  have hfh := List.getElem?_eq_getElem hlt
  have hps := hparams _ (List.getElem_mem hlt)
  simp only [hfh, Option.some.injEq, forall_eq', getElem!_pos b.view.functionHandles fd.function hlt,
    getElem!_pos b.view.signatures b.view.functionHandles[fd.function].parameters hps, List.getElem?_eq_getElem hps, exists_eq_left']
  refine and_congr ⟨fun h d hd r hr => h r hr d hd, fun h r hr d hd => h d hd r hr⟩ ?_
  cases fd.code with
  | none => simp
  | some codeUnit =>
    simp only [getLocals_bind_eq_ok, Option.mem_def, Option.some.injEq, forall_eq']
    constructor
    · -- the locals fit, and the body passes
      rintro ⟨locals, hlocals, hbody⟩
      split at hbody
      · cases hbody
      · refine ⟨fun locals' hlocals' => ?_, (checkCode_eq_ok (BoundsChecker.mk b.view (.moduleFunction idx)) _ _ _).mp hbody⟩
        rw [hlocals, Option.some.injEq] at hlocals'
        subst hlocals'
        omega
    · rintro ⟨hfit, hbody⟩
      obtain ⟨locals, hlocals, -⟩ := id hbody
      refine ⟨locals, hlocals, ?_⟩
      rw [if_neg (by have := hfit locals hlocals; omega)]
      exact (checkCode_eq_ok (BoundsChecker.mk b.view (.moduleFunction idx)) _ _ _).mpr hbody

end BoundsChecker

end Checks

open BoundsChecker in
/-- A module passes `verify_module` exactly when it is in bounds, check by check. -/
theorem BoundsChecker.verifyModule_eq_ok_iff (m : CompiledModule) :
    BoundsChecker.verifyModule m = .ok () ↔ ModuleInBounds m := by
  unfold BoundsChecker.verifyModule
  by_cases hnil : m.moduleHandles = []
  · -- no module handles: the checker stops at once
    simp only [moduleHandles_module, hnil, List.isEmpty_nil, if_true, error_ne_ok, false_iff]
    exact fun h => h.moduleHandles_ne_nil hnil
  · rw [if_neg (by simpa using hnil)]
    simp only [verifyImpl, seq_eq_ok, List.forM_eq_forM, forM_eq_ok, checkSignature_eq_ok,
      checkType_eq_ok, checkModuleHandle_eq_ok, checkStructHandle_eq_ok,
      checkFunctionHandle_eq_ok, checkFieldHandle_eq_ok, checkStructInstantiation_eq_ok,
      checkFunctionInstantiation_eq_ok, checkFieldInstantiation_eq_ok, checkStructDef_eq_ok,
      checkSelfModuleHandle, checkBoundsImpl_eq_ok, checkConstant, signatures_module,
      constantPool_module, moduleHandles_module, structHandles_module, functionHandles_module,
      fieldHandles_module, friendDecls_module, structInstantiations_module,
      functionInstantiations_module, fieldInstantiations_module, structDefs_module,
      functionDefs_module, selfHandleIdx_module, Option.getD_some]
    -- the function definitions' check needs the handles' parameters in range, which the
    -- checker has checked before them
    have hdefs (hparams : ∀ h ∈ m.functionHandles, h.parameters < m.signatures.length) :
        (∀ x ∈ m.functionDefs.zipIdx,
          (BoundsChecker.mk (module m) .module).checkFunctionDef x.2 x.1 =
            .ok ()) ↔ ∀ fd ∈ m.functionDefs, (module m).FunctionDefInBounds fd := by
      simp only [checkFunctionDef_eq_ok (BoundsChecker.mk (module m) .module) hparams]
      exact forall_mem_zipIdx_fst
    constructor
    · rintro ⟨hsig, hconst, hmh, hsh, hfh, hfield, hfriend, hsi, hfi, hfdi, hsd, hfd, hself⟩
      exact ⟨hnil, hsig, hconst, hmh, hsh, hfh, hfield, hfriend, hsi, hfi, hfdi, hsd,
        (hdefs fun h hh => (hfh h hh).2.2.1).mp hfd, hself⟩
    · intro h
      exact ⟨h.signatures, h.constants, h.moduleHandles, h.structHandles, h.functionHandles,
        h.fieldHandles, h.friendDecls, h.structInstantiations, h.functionInstantiations,
        h.fieldInstantiations, h.structDefs,
        (hdefs fun fh hh => (h.functionHandles fh hh).2.2.1).mpr h.functionDefs,
        h.selfModuleHandle⟩

/-- **The bounds checker decides bounds.** A module passes `verify_module` exactly
when it is in bounds. -/
theorem bounds_checker_accepts_exactly_in_bounds (m : CompiledModule) :
    BoundsChecker.verifyModule m = .ok () ↔ ModuleInBounds m :=
  BoundsChecker.verifyModule_eq_ok_iff m

/-- In a module in bounds, each instruction of a body has its operands in range. -/
theorem ModuleInBounds.instrInBounds {m : CompiledModule} (hb : ModuleInBounds m)
    {fd : FunctionDefinition} {code : CodeUnit} (hfd : fd ∈ m.functionDefs)
    (hcode : fd.code = some code) {instr : Bytecode} (hi : instr ∈ code.code) :
    ∃ typeParamCount localsCount, (module m).InstrInBounds typeParamCount localsCount
      code.code.length instr := by
  obtain ⟨fh, -, -, hbody⟩ := hb.functionDefs fd hfd
  obtain ⟨parameters, -, -, locals, -, -, hinstrs⟩ := hbody code hcode
  exact ⟨_, _, hinstrs instr hi⟩

/-- A module with one function, `branch target; ret`. -/
def boundsExample (target : ℕ) : CompiledModule :=
  { version := 3, selfModuleHandleIdx := 0, moduleHandles := [⟨0, 0⟩], structHandles := [],
    functionHandles := [⟨0, 1, 0, 0, []⟩], fieldHandles := [], friendDecls := [],
    structDefInstantiations := [], functionInstantiations := [], fieldInstantiations := [],
    signatures := [[]], identifiers := ["M", "f"],
    addressIdentifiers := [⟨Vector.replicate 16 0⟩], constantPool := [], structDefs := [],
    functionDefs := [⟨0, .public, [], some ⟨0, [.branch target, .ret]⟩⟩] }

example : BoundsChecker.verifyModule (boundsExample 1) = .ok () := by decide

-- a branch past the end is reported at its offset in its function
example : BoundsChecker.verifyModule (boundsExample 2) =
    .error (offsetOutOfBounds .indexOutOfBounds .codeDefinition 2 2 0 0) := by decide

end Dijets.Move
