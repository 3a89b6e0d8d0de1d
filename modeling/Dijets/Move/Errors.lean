import Mathlib

/-!
# Verifier errors

`PartialVMError`, the error the binary format's checks and the bytecode verifier's
passes return: a status code, an optional message, and the table indices and code
offsets it points at. The error's sub-status is left out: no modelled pass sets it.

`StatusCode` has the codes the modelled passes return, and `IndexKind` every kind
of table an index may point into, with the text the source prints for it.
-/

set_option autoImplicit false

namespace Dijets.Move

/-- `StatusCode`: the statuses the modelled passes return. -/
inductive StatusCode where
  | indexOutOfBounds
  | recursiveStructDefinition
  | loopInInstantiationGraph
  | noModuleHandles
  | numberOfTypeArgumentsMismatch
  | tooManyLocals
  | invalidOperationInScript
  | unknownInvariantViolationError
  | missingAcquiresAnnotation
  | extraneousAcquiresAnnotation
  | invalidAcquiresAnnotation
  | missingDependency
  | lookupFailed
  | typeMismatch
  | calledScriptVisibleFromNonScriptVisible
  | malformed
  | unknownSerializedType
  | negativeStackSizeWithinBlock
  | positiveStackSizeAtBlockEnd
deriving DecidableEq, Repr

/-- `IndexKind`: the tables an index may point into. -/
inductive IndexKind where
  | moduleHandle
  | structHandle
  | functionHandle
  | fieldHandle
  | friendDeclaration
  | functionInstantiation
  | fieldInstantiation
  | structDefinition
  | structDefInstantiation
  | functionDefinition
  | fieldDefinition
  | signature
  | identifier
  | addressIdentifier
  | constantPool
  | localPool
  | codeDefinition
  | typeParameter
  | memberCount
deriving DecidableEq, Repr

/-- `impl Display for IndexKind`. -/
def IndexKind.toString : IndexKind → String
  | moduleHandle => "module handle"
  | structHandle => "struct handle"
  | functionHandle => "function handle"
  | fieldHandle => "field handle"
  | friendDeclaration => "friend declaration"
  | structDefInstantiation => "struct instantiation"
  | functionInstantiation => "function instantiation"
  | fieldInstantiation => "field instantiation"
  | structDefinition => "struct definition"
  | functionDefinition => "function definition"
  | fieldDefinition => "field definition"
  | signature => "signature"
  | identifier => "identifier"
  | addressIdentifier => "address identifier"
  | constantPool => "constant pool"
  | localPool => "local pool"
  | codeDefinition => "code definition pool"
  | typeParameter => "type parameter"
  | memberCount => "field offset"

instance : ToString IndexKind := ⟨IndexKind.toString⟩

/-- `PartialVMError`, without its sub-status. The offsets are pairs of a function
definition's index and a code offset in it. -/
structure PartialVMError where
  majorStatus : StatusCode
  message : Option String
  indices : List (IndexKind × ℕ)
  offsets : List (ℕ × ℕ)
deriving DecidableEq, Repr

/-- `PartialVMResult`. -/
abbrev PartialVMResult (α : Type) := Except PartialVMError α

namespace PartialVMError

/-- `PartialVMError::new`. -/
def new (majorStatus : StatusCode) : PartialVMError :=
  { majorStatus, message := none, indices := [], offsets := [] }

def withMessage (e : PartialVMError) (message : String) : PartialVMError :=
  { e with message := some message }

def atIndex (e : PartialVMError) (kind : IndexKind) (index : ℕ) : PartialVMError :=
  { e with indices := e.indices ++ [(kind, index)] }

def atCodeOffset (e : PartialVMError) (function offset : ℕ) : PartialVMError :=
  { e with offsets := e.offsets ++ [(function, offset)] }

@[simp] theorem majorStatus_new (s : StatusCode) : (new s).majorStatus = s := rfl

@[simp] theorem majorStatus_withMessage (e : PartialVMError) (m : String) :
    (e.withMessage m).majorStatus = e.majorStatus := rfl

@[simp] theorem majorStatus_atIndex (e : PartialVMError) (k : IndexKind) (i : ℕ) :
    (e.atIndex k i).majorStatus = e.majorStatus := rfl

@[simp] theorem majorStatus_atCodeOffset (e : PartialVMError) (f o : ℕ) :
    (e.atCodeOffset f o).majorStatus = e.majorStatus := rfl

end PartialVMError

open PartialVMError

/-- `bounds_error`: index `idx` is past the end of a table of `len` entries. -/
def boundsError (status : StatusCode) (kind : IndexKind) (idx len : ℕ) : PartialVMError :=
  ((new status).atIndex kind idx).withMessage
    ("Index " ++ toString idx ++ " out of bounds for " ++ toString len ++ " while indexing " ++
      toString kind)

/-- `offset_out_of_bounds`: an operand of the instruction at `curBytecodeOffset` of
function `curFunction` is past the end of its table. -/
def offsetOutOfBounds (status : StatusCode) (kind : IndexKind) (targetOffset targetPoolLen
    curFunction curBytecodeOffset : ℕ) : PartialVMError :=
  ((new status).withMessage
    ("Index " ++ toString targetOffset ++ " out of bounds for " ++ toString targetPoolLen ++
      " at bytecode offset " ++ toString curBytecodeOffset ++ " in function " ++
      toString curFunction ++ " while indexing " ++ toString kind)).atCodeOffset
    curFunction curBytecodeOffset

/-- `verification_error`. -/
def verificationError (status : StatusCode) (kind : IndexKind) (idx : ℕ) : PartialVMError :=
  (new status).atIndex kind idx

end Dijets.Move
