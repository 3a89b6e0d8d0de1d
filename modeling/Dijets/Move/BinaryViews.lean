import Dijets.Move.FileFormat
import Dijets.Move.Errors
import Dijets.Lib.Outcome

/-!
# Indexed views of modules and scripts

`BinaryIndexedView` gives the verifier one way to read the tables of a module or
of a script. The tables a script does not have (field handles, friend
declarations, struct and field instantiations, struct and function definitions)
are `none` for a script, and a script has no self handle.
-/

set_option autoImplicit false

namespace Dijets.Move

open Dijets.Lib

/-- `BinaryIndexedView`. -/
inductive BinaryIndexedView where
  | module (m : CompiledModule)
  | script (s : CompiledScript)

namespace BinaryIndexedView

variable (v : BinaryIndexedView)

def moduleHandles : List ModuleHandle :=
  match v with
  | module m => m.moduleHandles
  | script s => s.moduleHandles

def structHandles : List StructHandle :=
  match v with
  | module m => m.structHandles
  | script s => s.structHandles

def functionHandles : List FunctionHandle :=
  match v with
  | module m => m.functionHandles
  | script s => s.functionHandles

def identifiers : List String :=
  match v with
  | module m => m.identifiers
  | script s => s.identifiers

def addressIdentifiers : List AccountAddress :=
  match v with
  | module m => m.addressIdentifiers
  | script s => s.addressIdentifiers

def constantPool : List Constant :=
  match v with
  | module m => m.constantPool
  | script s => s.constantPool

def signatures : List Signature :=
  match v with
  | module m => m.signatures
  | script s => s.signatures

def functionInstantiations : List FunctionInstantiation :=
  match v with
  | module m => m.functionInstantiations
  | script s => s.functionInstantiations

def fieldHandles : Option (List FieldHandle) :=
  match v with
  | module m => some m.fieldHandles
  | script _ => none

def friendDecls : Option (List ModuleHandle) :=
  match v with
  | module m => some m.friendDecls
  | script _ => none

def structInstantiations : Option (List StructDefInstantiation) :=
  match v with
  | module m => some m.structDefInstantiations
  | script _ => none

def fieldInstantiations : Option (List FieldInstantiation) :=
  match v with
  | module m => some m.fieldInstantiations
  | script _ => none

def structDefs : Option (List StructDefinition) :=
  match v with
  | module m => some m.structDefs
  | script _ => none

def functionDefs : Option (List FunctionDefinition) :=
  match v with
  | module m => some m.functionDefs
  | script _ => none

/-- `self_handle_idx`. -/
def selfHandleIdx : Option ℕ :=
  match v with
  | module m => some m.selfModuleHandleIdx
  | script _ => none

/-! ### Entries of the tables

Indexing a table out of range panics; a table a script does not have is an error. -/

/-- `signature_at`. -/
def signatureAt (idx : ℕ) : Outcome PartialVMError Signature := Outcome.ofOption v.signatures[idx]?

/-- `function_handle_at`. -/
def functionHandleAt (idx : ℕ) : Outcome PartialVMError FunctionHandle :=
  Outcome.ofOption v.functionHandles[idx]?

/-- `function_instantiation_at`. -/
def functionInstantiationAt (idx : ℕ) : Outcome PartialVMError FunctionInstantiation :=
  Outcome.ofOption v.functionInstantiations[idx]?

/-- `struct_def_at`. -/
def structDefAt (idx : ℕ) : Outcome PartialVMError StructDefinition :=
  match v.structDefs with
  | some structDefs => Outcome.ofOption structDefs[idx]?
  | none => .err (PartialVMError.new .invalidOperationInScript)

/-- `struct_instantiation_at`. -/
def structInstantiationAt (idx : ℕ) : Outcome PartialVMError StructDefInstantiation :=
  match v.structInstantiations with
  | some structInstantiations => Outcome.ofOption structInstantiations[idx]?
  | none => .err (PartialVMError.new .invalidOperationInScript)

section Module

variable (m : CompiledModule)

@[simp] theorem moduleHandles_module : (module m).moduleHandles = m.moduleHandles := rfl
@[simp] theorem structHandles_module : (module m).structHandles = m.structHandles := rfl
@[simp] theorem functionHandles_module : (module m).functionHandles = m.functionHandles := rfl
@[simp] theorem identifiers_module : (module m).identifiers = m.identifiers := rfl
@[simp] theorem addressIdentifiers_module :
    (module m).addressIdentifiers = m.addressIdentifiers := rfl
@[simp] theorem constantPool_module : (module m).constantPool = m.constantPool := rfl
@[simp] theorem signatures_module : (module m).signatures = m.signatures := rfl
@[simp] theorem functionInstantiations_module :
    (module m).functionInstantiations = m.functionInstantiations := rfl
@[simp] theorem fieldHandles_module : (module m).fieldHandles = some m.fieldHandles := rfl
@[simp] theorem friendDecls_module : (module m).friendDecls = some m.friendDecls := rfl
@[simp] theorem structInstantiations_module :
    (module m).structInstantiations = some m.structDefInstantiations := rfl
@[simp] theorem fieldInstantiations_module :
    (module m).fieldInstantiations = some m.fieldInstantiations := rfl
@[simp] theorem structDefs_module : (module m).structDefs = some m.structDefs := rfl
@[simp] theorem functionDefs_module : (module m).functionDefs = some m.functionDefs := rfl
@[simp] theorem selfHandleIdx_module : (module m).selfHandleIdx = some m.selfModuleHandleIdx :=
  rfl

end Module

end BinaryIndexedView

end Dijets.Move
