import Dijets.Move.BinaryViews
import Dijets.Lib.Check

/-!
# The bounds checker

`BoundsChecker::verify_module` and `verify_script`: before any other pass of the
verifier reads a module, every index stored in its tables is checked against the
table it points into, every struct type against the number of type arguments its
handle declares, and every function body's branch targets, locals and type
parameters against the body's own bounds.

The checker's `for` loops with `?` are `List.forM` in `Except`, and its loops with
`enumerate` run over `List.zipIdx`. Where the source indexes a table with `[]`
after a `debug_assert!` that the index is in range, the model indexes with `[i]!`.

The checker keeps one piece of state, its context, which says what an error at a
code offset names: `check_function_def` sets it to the function it checks, so the
model passes the updated checker on to the function's checks.
-/

set_option autoImplicit false

namespace Dijets.Move

open PartialVMError

/-- `BoundsCheckingContext`. -/
inductive BoundsCheckingContext where
  | module
  | moduleFunction (idx : ℕ)
  | script
deriving DecidableEq, Repr

/-- `check_bounds_impl`: `idx` points into `pool`, a table of kind `kind`. -/
def checkBoundsImpl {α : Type} (pool : List α) (kind : IndexKind) (idx : ℕ) :
    PartialVMResult Unit :=
  if idx ≥ pool.length then .error (boundsError .indexOutOfBounds kind idx pool.length)
  else .ok ()

/-- `check_bounds_impl_opt`: a table the view does not have is not checked. -/
def checkBoundsImplOpt {α : Type} (pool : Option (List α)) (kind : IndexKind) (idx : ℕ) :
    PartialVMResult Unit :=
  match pool with
  | some p => checkBoundsImpl p kind idx
  | none => .ok ()

/-- `StructFieldInformation`'s field count: none for a native struct. -/
def StructDefinition.fieldsCount (sd : StructDefinition) : ℕ :=
  match sd.fieldInformation with
  | .native => 0
  | .declared fields => fields.length

/-- `BoundsChecker`. -/
structure BoundsChecker where
  view : BinaryIndexedView
  context : BoundsCheckingContext

namespace BoundsChecker

variable (b : BoundsChecker)

/-- `offset_out_of_bounds`: the error for an operand of the instruction at
`curBytecodeOffset`, named after the checker's context. -/
def offsetOutOfBounds (status : StatusCode) (kind : IndexKind)
    (targetOffset targetPoolLen curBytecodeOffset : ℕ) : PartialVMError :=
  match b.context with
  | .module =>
    (new .unknownInvariantViolationError).withMessage
      ("Indexing into bytecode " ++ toString curBytecodeOffset ++
        " during bounds checking but \x27current_function\x27 was not set")
  | .moduleFunction currentFunctionIndex =>
    Dijets.Move.offsetOutOfBounds status kind targetOffset targetPoolLen currentFunctionIndex
      curBytecodeOffset
  | .script =>
    (new status).withMessage
      ("Index " ++ toString targetOffset ++ " out of bounds for " ++ toString targetPoolLen ++
        " at bytecode offset " ++ toString curBytecodeOffset ++
        " in script while indexing " ++ toString kind)

/-- `check_code_unit_bounds_impl`. -/
def checkCodeUnitBoundsImpl {α : Type} (pool : List α) (kind : IndexKind)
    (idx bytecodeOffset : ℕ) : PartialVMResult Unit :=
  if idx ≥ pool.length then
    .error (b.offsetOutOfBounds .indexOutOfBounds kind idx pool.length bytecodeOffset)
  else .ok ()

/-- `check_code_unit_bounds_impl_opt`. -/
def checkCodeUnitBoundsImplOpt {α : Type} (pool : Option (List α)) (kind : IndexKind)
    (idx bytecodeOffset : ℕ) : PartialVMResult Unit :=
  match pool with
  | some p => b.checkCodeUnitBoundsImpl p kind idx bytecodeOffset
  | none => .ok ()

/-! ## Types -/

/-- The body of `check_type`'s loop: a struct type names a struct handle and has as
many type arguments as the handle declares. -/
def checkTypeToken : SignatureToken → PartialVMResult Unit
  | .struct idx => do
    checkBoundsImpl b.view.structHandles .structHandle idx
    match b.view.structHandles[idx]? with
    | some sh =>
      if !sh.typeParameters.isEmpty then
        .error ((new .numberOfTypeArgumentsMismatch).withMessage
          ("expected " ++ toString sh.typeParameters.length ++ " type parameters got 0 (Struct)"))
      else .ok ()
    | none => .ok ()
  | .structInstantiation idx typeParams => do
    checkBoundsImpl b.view.structHandles .structHandle idx
    match b.view.structHandles[idx]? with
    | some sh =>
      if sh.typeParameters.length ≠ typeParams.length then
        .error ((new .numberOfTypeArgumentsMismatch).withMessage
          ("expected " ++ toString sh.typeParameters.length ++ " type parameters got " ++
            toString typeParams.length))
      else .ok ()
    | none => .ok ()
  | .bool | .u8 | .u64 | .u128 | .address | .signer | .typeParameter _ | .reference _
  | .mutableReference _ | .vector _ => .ok ()

/-- `check_type`: every token of the type, in preorder. -/
def checkType (ty : SignatureToken) : PartialVMResult Unit :=
  ty.preorderTraversal.forM b.checkTypeToken

/-- The body of `check_type_parameter`'s loop. -/
def checkTypeParameterToken (typeParamCount : ℕ) : SignatureToken → PartialVMResult Unit
  | .typeParameter idx =>
    if idx ≥ typeParamCount then
      .error (boundsError .indexOutOfBounds .typeParameter idx typeParamCount)
    else .ok ()
  | .bool | .u8 | .u64 | .u128 | .address | .signer | .struct _ | .reference _
  | .mutableReference _ | .vector _ | .structInstantiation _ _ => .ok ()

/-- `check_type_parameter`: every type parameter of the type is below `typeParamCount`. -/
def checkTypeParameter (ty : SignatureToken) (typeParamCount : ℕ) : PartialVMResult Unit :=
  ty.preorderTraversal.forM (checkTypeParameterToken typeParamCount)

/-- The checker's repeated `if let Some(sig) = self.view.signatures().get(idx) { for ty
in &sig.0 { self.check_type_parameter(ty, count)? } }`: the type parameters of the
signature at `idx`, if there is one. -/
def checkSignatureTypeParameters (idx typeParamCount : ℕ) : PartialVMResult Unit :=
  match b.view.signatures[idx]? with
  | some sig => sig.forM fun ty => checkTypeParameter ty typeParamCount
  | none => .ok ()

/-- `check_signature`. -/
def checkSignature (signature : Signature) : PartialVMResult Unit :=
  signature.forM b.checkType

/-- `check_constant`. -/
def checkConstant (constant : Constant) : PartialVMResult Unit :=
  b.checkType constant.type_

/-! ## Handles, instantiations and definitions -/

/-- `check_module_handle`. -/
def checkModuleHandle (moduleHandle : ModuleHandle) : PartialVMResult Unit := do
  checkBoundsImpl b.view.addressIdentifiers .addressIdentifier moduleHandle.address
  checkBoundsImpl b.view.identifiers .identifier moduleHandle.name

/-- `check_self_module_handle`. -/
def checkSelfModuleHandle : PartialVMResult Unit :=
  match b.view.selfHandleIdx with
  | some idx => checkBoundsImpl b.view.moduleHandles .moduleHandle idx
  | none => .ok ()

/-- `check_struct_handle`. -/
def checkStructHandle (structHandle : StructHandle) : PartialVMResult Unit := do
  checkBoundsImpl b.view.moduleHandles .moduleHandle structHandle.module
  checkBoundsImpl b.view.identifiers .identifier structHandle.name

/-- `check_function_handle`. -/
def checkFunctionHandle (functionHandle : FunctionHandle) : PartialVMResult Unit := do
  checkBoundsImpl b.view.moduleHandles .moduleHandle functionHandle.module
  checkBoundsImpl b.view.identifiers .identifier functionHandle.name
  checkBoundsImpl b.view.signatures .signature functionHandle.parameters
  checkBoundsImpl b.view.signatures .signature functionHandle.return_
  -- the type parameters of both signatures are the function's own
  let typeParamCount := functionHandle.typeParameters.length
  b.checkSignatureTypeParameters functionHandle.parameters typeParamCount
  b.checkSignatureTypeParameters functionHandle.return_ typeParamCount

/-- `check_field_handle`. -/
def checkFieldHandle (fieldHandle : FieldHandle) : PartialVMResult Unit := do
  checkBoundsImplOpt b.view.structDefs .structDefinition fieldHandle.owner
  -- the field's offset is in bounds for the struct definition just checked
  match b.view.structDefs.bind fun d => d[fieldHandle.owner]? with
  | some structDef =>
    let fieldsCount := StructDefinition.fieldsCount structDef
    if fieldHandle.field ≥ fieldsCount then
      .error (boundsError .indexOutOfBounds .memberCount fieldHandle.field fieldsCount)
    else .ok ()
  | none => .ok ()

/-- `check_struct_instantiation`. -/
def checkStructInstantiation (structInstantiation : StructDefInstantiation) :
    PartialVMResult Unit := do
  checkBoundsImplOpt b.view.structDefs .structDefinition structInstantiation.«def»
  checkBoundsImpl b.view.signatures .signature structInstantiation.typeParameters

/-- `check_function_instantiation`. -/
def checkFunctionInstantiation (functionInstantiation : FunctionInstantiation) :
    PartialVMResult Unit := do
  checkBoundsImpl b.view.functionHandles .functionHandle functionInstantiation.handle
  checkBoundsImpl b.view.signatures .signature functionInstantiation.typeParameters

/-- `check_field_instantiation`. -/
def checkFieldInstantiation (fieldInstantiation : FieldInstantiation) :
    PartialVMResult Unit := do
  checkBoundsImplOpt b.view.fieldHandles .fieldHandle fieldInstantiation.handle
  checkBoundsImpl b.view.signatures .signature fieldInstantiation.typeParameters

/-- `check_struct_def`: the handle, and the name and type of each declared field, whose
type parameters are the struct's own. -/
def checkStructDef (structDef : StructDefinition) : PartialVMResult Unit := do
  checkBoundsImpl b.view.structHandles .structHandle structDef.structHandle
  match structDef.fieldInformation with
  | .declared fields =>
    let typeParamCount :=
      match b.view.structHandles[structDef.structHandle]? with
      | some sh => sh.typeParameters.length
      | none => 0
    fields.forM fun field => do
      checkBoundsImpl b.view.identifiers .identifier field.name
      b.checkType field.signature
      checkTypeParameter field.signature typeParamCount
  | .native => .ok ()

/-! ## Code -/

/-- `get_locals`. -/
def getLocals (codeUnit : CodeUnit) : PartialVMResult Signature :=
  match b.view.signatures[codeUnit.locals]? with
  | some signature => .ok signature
  | none =>
    .error (boundsError .indexOutOfBounds .signature codeUnit.locals b.view.signatures.length)

/-- The body of `check_code`'s loop over the instructions: the operands of the
instruction at `bytecodeOffset`. -/
def checkInstruction (typeParamCount localsCount codeLen bytecodeOffset : ℕ) :
    Bytecode → PartialVMResult Unit
  | .ldConst idx => b.checkCodeUnitBoundsImpl b.view.constantPool .constantPool idx bytecodeOffset
  | .mutBorrowField idx | .immBorrowField idx =>
    b.checkCodeUnitBoundsImplOpt b.view.fieldHandles .fieldHandle idx bytecodeOffset
  | .mutBorrowFieldGeneric idx | .immBorrowFieldGeneric idx => do
    b.checkCodeUnitBoundsImplOpt b.view.fieldInstantiations .fieldInstantiation idx bytecodeOffset
    match b.view.fieldInstantiations.bind fun f => f[idx]? with
    | some fieldInst => b.checkSignatureTypeParameters fieldInst.typeParameters typeParamCount
    | none => .ok ()
  | .call idx => b.checkCodeUnitBoundsImpl b.view.functionHandles .functionHandle idx bytecodeOffset
  | .callGeneric idx => do
    b.checkCodeUnitBoundsImpl b.view.functionInstantiations .functionInstantiation idx
      bytecodeOffset
    match b.view.functionInstantiations[idx]? with
    | some funcInst => b.checkSignatureTypeParameters funcInst.typeParameters typeParamCount
    | none => .ok ()
  | .pack idx | .unpack idx | .exists idx | .immBorrowGlobal idx | .mutBorrowGlobal idx
  | .moveFrom idx | .moveTo idx =>
    b.checkCodeUnitBoundsImplOpt b.view.structDefs .structDefinition idx bytecodeOffset
  | .packGeneric idx | .unpackGeneric idx | .existsGeneric idx | .immBorrowGlobalGeneric idx
  | .mutBorrowGlobalGeneric idx | .moveFromGeneric idx | .moveToGeneric idx => do
    b.checkCodeUnitBoundsImplOpt b.view.structInstantiations .structDefInstantiation idx
      bytecodeOffset
    match b.view.structInstantiations.bind fun s => s[idx]? with
    | some structInst => b.checkSignatureTypeParameters structInst.typeParameters typeParamCount
    | none => .ok ()
  -- instructions that refer to this code block
  | .brTrue offset | .brFalse offset | .branch offset =>
    if offset ≥ codeLen then
      .error (b.offsetOutOfBounds .indexOutOfBounds .codeDefinition offset codeLen bytecodeOffset)
    else .ok ()
  -- instructions that refer to the locals
  | .copyLoc idx | .moveLoc idx | .stLoc idx | .mutBorrowLoc idx | .immBorrowLoc idx =>
    if idx ≥ localsCount then
      .error (b.offsetOutOfBounds .indexOutOfBounds .localPool idx localsCount bytecodeOffset)
    else .ok ()
  -- instructions that refer to a signature
  | .vecPack idx _ | .vecLen idx | .vecImmBorrow idx | .vecMutBorrow idx | .vecPushBack idx
  | .vecPopBack idx | .vecUnpack idx _ | .vecSwap idx => do
    b.checkCodeUnitBoundsImpl b.view.signatures .signature idx bytecodeOffset
    b.checkSignatureTypeParameters idx typeParamCount
  | .freezeRef | .pop | .ret | .ldU8 _ | .ldU64 _ | .ldU128 _ | .castU8 | .castU64
  | .castU128 | .ldTrue | .ldFalse | .readRef | .writeRef | .add | .sub | .mul | .mod
  | .div | .bitOr | .bitAnd | .xor | .shl | .shr | .or | .and | .not | .eq | .neq | .lt | .gt
  | .le | .ge | .abort | .nop => .ok ()

/-- `check_code`: the locals' signature and its type parameters, then each
instruction. -/
def checkCode (codeUnit : CodeUnit) (typeParameters : List AbilitySet)
    (parameters : Signature) : PartialVMResult Unit := do
  checkBoundsImpl b.view.signatures .signature codeUnit.locals
  let locals ← b.getLocals codeUnit
  let localsCount := locals.length + parameters.length
  let typeParamCount := typeParameters.length
  locals.forM fun ty => checkTypeParameter ty typeParamCount
  let codeLen := codeUnit.code.length
  codeUnit.code.zipIdx.forM fun (bytecode, bytecodeOffset) =>
    b.checkInstruction typeParamCount localsCount codeLen bytecodeOffset bytecode

/-- `check_function_def`: the handle and acquired structs, then the body of a function
that is not native, in the context of the function. -/
def checkFunctionDef (functionDefIdx : ℕ) (functionDef : FunctionDefinition) :
    PartialVMResult Unit := do
  let b : BoundsChecker := { b with context := .moduleFunction functionDefIdx }
  checkBoundsImpl b.view.functionHandles .functionHandle functionDef.function
  functionDef.acquiresGlobalResources.forM fun ty =>
    checkBoundsImplOpt b.view.structDefs .structDefinition ty
  match functionDef.code with
  | none => .ok ()
  | some codeUnit =>
    let functionHandle := b.view.functionHandles[functionDef.function]!
    let parameters := b.view.signatures[functionHandle.parameters]!
    -- the parameters and locals together must fit a `u8` index
    let locals ← b.getLocals codeUnit
    let localsCount := locals.length + parameters.length
    if localsCount > 255 + 1 then
      .error (verificationError .tooManyLocals .functionDefinition functionDefIdx)
    else b.checkCode codeUnit functionHandle.typeParameters parameters

/-- `verify_impl`: each table in turn, the function definitions last, then the self
handle. -/
def verifyImpl : PartialVMResult Unit := do
  b.view.signatures.forM b.checkSignature
  b.view.constantPool.forM b.checkConstant
  b.view.moduleHandles.forM b.checkModuleHandle
  b.view.structHandles.forM b.checkStructHandle
  b.view.functionHandles.forM b.checkFunctionHandle
  (b.view.fieldHandles.getD []).forM b.checkFieldHandle
  (b.view.friendDecls.getD []).forM b.checkModuleHandle
  (b.view.structInstantiations.getD []).forM b.checkStructInstantiation
  b.view.functionInstantiations.forM b.checkFunctionInstantiation
  (b.view.fieldInstantiations.getD []).forM b.checkFieldInstantiation
  (b.view.structDefs.getD []).forM b.checkStructDef
  (b.view.functionDefs.getD []).zipIdx.forM fun (functionDef, functionDefIdx) =>
    b.checkFunctionDef functionDefIdx functionDef
  b.checkSelfModuleHandle

/-- `BoundsChecker::verify_module`. -/
def verifyModule (module : CompiledModule) : PartialVMResult Unit :=
  let boundsCheck : BoundsChecker := { view := .module module, context := .module }
  if boundsCheck.view.moduleHandles.isEmpty then
    .error (verificationError .noModuleHandles .moduleHandle 0)
  else boundsCheck.verifyImpl

/-- `BoundsChecker::verify_script`: the tables, then the script's code, which is
outside any function definition. -/
def verifyScript (script : CompiledScript) : PartialVMResult Unit := do
  let boundsCheck : BoundsChecker := { view := .script script, context := .script }
  boundsCheck.verifyImpl
  match script.signatures[script.parameters]? with
  | some signature => boundsCheck.checkCode script.code script.typeParameters signature
  | none =>
    .error (boundsError .indexOutOfBounds .signature script.parameters script.signatures.length)

end BoundsChecker

end Dijets.Move
