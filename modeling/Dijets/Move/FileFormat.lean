import Mathlib

/-!
# The Move binary format

The tables of a compiled Move module or script: module, struct and function
handles, the struct definitions with their fields, field handles, friend
declarations, the instantiations of generic structs, fields and functions, the
signature, identifier, address and constant pools, and the function definitions
with their bytecode.

Indices into the tables are natural numbers, the values of the source's `u16`
index newtypes.

`SignatureToken` is nested (a struct instantiation holds a list of tokens), and
Lean derives no `DecidableEq` for such a type: its equality test is written out
as a mutual structural recursion, `SignatureToken.beq`, with the two lemmas that
make it decide equality.

## Main definitions

* `Ability`, `AbilitySet` — the four abilities, and the `u8` bit set of them.
* `SignatureToken` — the types of values on the stack and in locals, and
  `preorderTraversal`, the order in which the verifier visits a token's parts.
* `Bytecode` — the instruction set.
* `CompiledModule`, `CompiledScript` — the tables.
-/

set_option autoImplicit false

namespace Dijets.Move

/-! ## Abilities -/

/-- `Ability`: what values of a type may do. -/
inductive Ability where
  | copy
  | drop
  | store
  | key
deriving DecidableEq, Repr

namespace Ability

/-- The bit of the ability in an `AbilitySet`. -/
def toU8 : Ability → UInt8
  | copy => 0x1
  | drop => 0x2
  | store => 0x4
  | key => 0x8

/-- `Ability::from_u8`. -/
def fromU8 (u : UInt8) : Option Ability :=
  if u = 0x1 then some copy
  else if u = 0x2 then some drop
  else if u = 0x4 then some store
  else if u = 0x8 then some key
  else none

/-- `requires`: the ability every field of a struct with this ability must have. -/
def requires : Ability → Ability
  | copy => copy
  | drop => drop
  | store => store
  | key => store

end Ability

/-- `AbilitySet`: a `u8` whose bits are the abilities it holds. -/
structure AbilitySet where
  bits : UInt8
deriving DecidableEq, Repr, Inhabited

namespace AbilitySet

def EMPTY : AbilitySet := ⟨0⟩
def PRIMITIVES : AbilitySet := ⟨0x1 ||| 0x2 ||| 0x4⟩
def REFERENCES : AbilitySet := ⟨0x1 ||| 0x2⟩
def SIGNER : AbilitySet := ⟨0x2⟩
def VECTOR : AbilitySet := ⟨0x1 ||| 0x2 ||| 0x4⟩
def ALL : AbilitySet := ⟨0x1 ||| 0x2 ||| 0x4 ||| 0x8⟩

/-- `has_ability`. -/
def hasAbility (s : AbilitySet) (a : Ability) : Bool :=
  (a.toU8 &&& s.bits) == a.toU8

def hasCopy (s : AbilitySet) : Bool := s.hasAbility .copy
def hasDrop (s : AbilitySet) : Bool := s.hasAbility .drop
def hasStore (s : AbilitySet) : Bool := s.hasAbility .store
def hasKey (s : AbilitySet) : Bool := s.hasAbility .key

/-- `s | a`. -/
def add (s : AbilitySet) (a : Ability) : AbilitySet := ⟨s.bits ||| a.toU8⟩

def intersect (s t : AbilitySet) : AbilitySet := ⟨s.bits &&& t.bits⟩

def union (s t : AbilitySet) : AbilitySet := ⟨s.bits ||| t.bits⟩

/-- `is_subset`. -/
def isSubset (s t : AbilitySet) : Bool := (s.bits &&& t.bits) == s.bits

/-- `into_iter`: the abilities of the set, in the order of their bits. -/
def toList (s : AbilitySet) : List Ability :=
  [Ability.copy, .drop, .store, .key].filterMap fun a => Ability.fromU8 (s.bits &&& a.toU8)

/-- `AbilitySet::from_u8`: a byte whose bits are all abilities. -/
def fromU8 (byte : UInt8) : Option AbilitySet :=
  if (byte &&& ALL.bits) == byte then some ⟨byte⟩ else none

end AbilitySet

/-- `Ability::required_by`: the abilities of a struct that need this ability of
its fields. -/
def Ability.requiredBy : Ability → AbilitySet
  | copy => AbilitySet.EMPTY.add .copy
  | drop => AbilitySet.EMPTY.add .drop
  | store => (AbilitySet.EMPTY.add .store).add .key
  | key => AbilitySet.EMPTY

/-! ## Types -/

/-- `SignatureToken`: a type, with struct types by their handle's index and type
parameters by their position. -/
inductive SignatureToken where
  | bool
  | u8
  | u64
  | u128
  | address
  | signer
  | vector (ty : SignatureToken)
  | struct (idx : ℕ)
  | structInstantiation (idx : ℕ) (tyArgs : List SignatureToken)
  | reference (ty : SignatureToken)
  | mutableReference (ty : SignatureToken)
  | typeParameter (idx : ℕ)
deriving Repr

namespace SignatureToken

mutual
/-- Structural equality of tokens. -/
def beq : SignatureToken → SignatureToken → Bool
  | bool, bool | u8, u8 | u64, u64 | u128, u128 | address, address | signer, signer => true
  | vector t, vector t' | reference t, reference t' | mutableReference t, mutableReference t' =>
    beq t t'
  | struct i, struct i' | typeParameter i, typeParameter i' => i == i'
  | structInstantiation i ts, structInstantiation i' ts' => i == i' && beqList ts ts'
  | _, _ => false

/-- Structural equality of lists of tokens. -/
def beqList : List SignatureToken → List SignatureToken → Bool
  | [], [] => true
  | t :: ts, t' :: ts' => beq t t' && beqList ts ts'
  | _, _ => false
end

mutual
theorem eq_of_beq : (a b : SignatureToken) → a.beq b = true → a = b
  | vector t, b, h | reference t, b, h | mutableReference t, b, h => by
    cases b <;> simp only [beq, reduceCtorEq] at h
    all_goals rw [eq_of_beq t _ h]
  | structInstantiation i ts, b, h => by
    cases b <;> simp only [beq, Bool.and_eq_true, beq_iff_eq, reduceCtorEq] at h
    rw [h.1, eqList_of_beqList ts _ h.2]
  | bool, b, h | u8, b, h | u64, b, h | u128, b, h | address, b, h | signer, b, h
  | struct _, b, h | typeParameter _, b, h => by
    cases b <;> simp_all [beq]

theorem eqList_of_beqList : (a b : List SignatureToken) → beqList a b = true → a = b
  | [], [], _ => rfl
  | t :: ts, t' :: ts', h => by
    simp only [beqList, Bool.and_eq_true] at h
    rw [eq_of_beq t t' h.1, eqList_of_beqList ts ts' h.2]
  | [], _ :: _, h | _ :: _, [], h => by simp [beqList] at h
end

mutual
theorem beq_self : (a : SignatureToken) → a.beq a = true
  | vector t | reference t | mutableReference t => by
    simp only [beq]
    exact beq_self t
  | structInstantiation i ts => by
    simp only [beq, beq_self_eq_true, Bool.true_and]
    exact beqList_self ts
  | bool | u8 | u64 | u128 | address | signer | struct _ | typeParameter _ => by
    simp [beq]

theorem beqList_self : (a : List SignatureToken) → beqList a a = true
  | [] => rfl
  | t :: ts => by
    simp only [beqList, Bool.and_eq_true]
    exact ⟨beq_self t, beqList_self ts⟩
end

instance : DecidableEq SignatureToken := fun a b =>
  decidable_of_iff (a.beq b = true) ⟨eq_of_beq a b, fun h => h ▸ beq_self a⟩

def isReference : SignatureToken → Bool
  | reference _ | mutableReference _ => true
  | _ => false

def isMutableReference : SignatureToken → Bool
  | mutableReference _ => true
  | _ => false

def isInteger : SignatureToken → Bool
  | u8 | u64 | u128 => true
  | _ => false

mutual
/-- `preorder_traversal`: the tokens the iterator yields, in its order. The iterator
pops the top of a stack and pushes the token's inner tokens, the first on top, so
a token comes before its inner tokens, and these come from left to right. -/
def preorderTraversal : SignatureToken → List SignatureToken
  | t@(vector ty) | t@(reference ty) | t@(mutableReference ty) => t :: preorderTraversal ty
  | t@(structInstantiation _ tyArgs) => t :: preorderTraversalList tyArgs
  | t => [t]

/-- The preorder traversals of a list of tokens, one after the other. -/
def preorderTraversalList : List SignatureToken → List SignatureToken
  | [] => []
  | t :: ts => preorderTraversal t ++ preorderTraversalList ts
end

mutual
/-- `impl Debug for SignatureToken`: the text `{:?}` prints. -/
def debug : SignatureToken → String
  | bool => "Bool"
  | u8 => "U8"
  | u64 => "U64"
  | u128 => "U128"
  | address => "Address"
  | signer => "Signer"
  | vector ty => "Vector(" ++ debug ty ++ ")"
  | struct idx => "Struct(StructHandleIndex(" ++ toString idx ++ "))"
  | structInstantiation idx tys =>
    "StructInstantiation(StructHandleIndex(" ++ toString idx ++ "), [" ++ debugList tys ++ "])"
  | reference ty => "Reference(" ++ debug ty ++ ")"
  | mutableReference ty => "MutableReference(" ++ debug ty ++ ")"
  | typeParameter idx => "TypeParameter(" ++ toString idx ++ ")"

/-- The entries of a vector of tokens as its `{:?}` prints them, without the brackets. -/
def debugList : List SignatureToken → String
  | [] => ""
  | [ty] => debug ty
  | ty :: tys => debug ty ++ ", " ++ debugList tys
end

end SignatureToken

/-- `Signature`: a list of types, for parameters, results, locals and type
arguments. -/
abbrev Signature := List SignatureToken

/-! ## Tables -/

/-- `StructTypeParameter`. -/
structure StructTypeParameter where
  constraints : AbilitySet
  isPhantom : Bool
deriving DecidableEq, Repr

/-- `AccountAddress`: the sixteen bytes of an account address. -/
structure AccountAddress where
  bytes : Vector UInt8 16
deriving DecidableEq, Repr

/-- `ModuleHandle`: a module by the indices of its address and its name. -/
structure ModuleHandle where
  address : ℕ
  name : ℕ
deriving DecidableEq, Repr

/-- `StructHandle`: a struct by its module and name, with its abilities and the
constraints of its type parameters. -/
structure StructHandle where
  module : ℕ
  name : ℕ
  abilities : AbilitySet
  typeParameters : List StructTypeParameter
deriving DecidableEq, Repr

/-- `FieldDefinition`: a field's name and type. -/
structure FieldDefinition where
  name : ℕ
  signature : SignatureToken
deriving DecidableEq, Repr

/-- `StructFieldInformation`. -/
inductive StructFieldInformation where
  | native
  | declared (fields : List FieldDefinition)
deriving DecidableEq, Repr, Inhabited

/-- `StructDefinition`. -/
structure StructDefinition where
  structHandle : ℕ
  fieldInformation : StructFieldInformation
deriving DecidableEq, Repr, Inhabited

/-- `StructDefinitionView::fields`, flattened: the declared fields, none for a native
struct. -/
def StructDefinition.fields (sd : StructDefinition) : List FieldDefinition :=
  match sd.fieldInformation with
  | .native => []
  | .declared fields => fields

/-- `FieldHandle`: the struct definition that owns the field, and its position. -/
structure FieldHandle where
  owner : ℕ
  field : ℕ
deriving DecidableEq, Repr

/-- `FieldInstantiation`. -/
structure FieldInstantiation where
  handle : ℕ
  typeParameters : ℕ
deriving DecidableEq, Repr

/-- `StructDefInstantiation`. -/
structure StructDefInstantiation where
  «def» : ℕ
  typeParameters : ℕ
deriving DecidableEq, Repr

/-- `FunctionHandle`: a function by its module and name, with the signatures of
its parameters and results and the constraints of its type parameters. -/
structure FunctionHandle where
  module : ℕ
  name : ℕ
  parameters : ℕ
  return_ : ℕ
  typeParameters : List AbilitySet
deriving DecidableEq, Repr, Inhabited

/-- `FunctionInstantiation`. -/
structure FunctionInstantiation where
  handle : ℕ
  typeParameters : ℕ
deriving DecidableEq, Repr

/-- `Constant`: a serialized value and its type. -/
structure Constant where
  type_ : SignatureToken
  data : List UInt8
deriving DecidableEq, Repr

/-! ## Instructions -/

/-- `Bytecode`: the instructions, with their operands. -/
inductive Bytecode where
  | pop
  | ret
  | brTrue (offset : ℕ)
  | brFalse (offset : ℕ)
  | branch (offset : ℕ)
  | ldU8 (value : ℕ)
  | ldU64 (value : ℕ)
  | ldU128 (value : ℕ)
  | castU8
  | castU64
  | castU128
  | ldConst (idx : ℕ)
  | ldTrue
  | ldFalse
  | copyLoc (idx : ℕ)
  | moveLoc (idx : ℕ)
  | stLoc (idx : ℕ)
  | call (idx : ℕ)
  | callGeneric (idx : ℕ)
  | pack (idx : ℕ)
  | packGeneric (idx : ℕ)
  | unpack (idx : ℕ)
  | unpackGeneric (idx : ℕ)
  | readRef
  | writeRef
  | freezeRef
  | mutBorrowLoc (idx : ℕ)
  | immBorrowLoc (idx : ℕ)
  | mutBorrowField (idx : ℕ)
  | mutBorrowFieldGeneric (idx : ℕ)
  | immBorrowField (idx : ℕ)
  | immBorrowFieldGeneric (idx : ℕ)
  | mutBorrowGlobal (idx : ℕ)
  | mutBorrowGlobalGeneric (idx : ℕ)
  | immBorrowGlobal (idx : ℕ)
  | immBorrowGlobalGeneric (idx : ℕ)
  | add
  | sub
  | mul
  | mod
  | div
  | bitOr
  | bitAnd
  | xor
  | or
  | and
  | not
  | eq
  | neq
  | lt
  | gt
  | le
  | ge
  | abort
  | nop
  | exists (idx : ℕ)
  | existsGeneric (idx : ℕ)
  | moveFrom (idx : ℕ)
  | moveFromGeneric (idx : ℕ)
  | moveTo (idx : ℕ)
  | moveToGeneric (idx : ℕ)
  | shl
  | shr
  | vecPack (idx : ℕ) (num : ℕ)
  | vecLen (idx : ℕ)
  | vecImmBorrow (idx : ℕ)
  | vecMutBorrow (idx : ℕ)
  | vecPushBack (idx : ℕ)
  | vecPopBack (idx : ℕ)
  | vecUnpack (idx : ℕ) (num : ℕ)
  | vecSwap (idx : ℕ)
deriving DecidableEq, Repr

namespace Bytecode

def isUnconditionalBranch : Bytecode → Bool
  | ret | abort | branch _ => true
  | _ => false

def isConditionalBranch : Bytecode → Bool
  | brFalse _ | brTrue _ => true
  | _ => false

def isBranch (b : Bytecode) : Bool := b.isConditionalBranch || b.isUnconditionalBranch

/-- `offset`: the target of a branch. -/
def offset : Bytecode → Option ℕ
  | brFalse o | brTrue o | branch o => some o
  | _ => none

/-- `get_successors`: the offsets control may go to after `pc`, in ascending
order. -/
def getSuccessors (pc : ℕ) (code : List Bytecode) : List ℕ :=
  match code[pc]? with
  | none => []
  | some bytecode =>
    let v := bytecode.offset.toList
    let nextPc := pc + 1
    if nextPc ≥ code.length then v
    else
      let v := if !bytecode.isUnconditionalBranch && !v.contains nextPc then v ++ [nextPc] else v
      match v with
      | [a, b] => if a > b then [b, a] else v
      | _ => v

end Bytecode

/-- `CodeUnit`: the signature of the locals beyond the parameters, and the code. -/
structure CodeUnit where
  locals : ℕ
  code : List Bytecode
deriving DecidableEq, Repr

/-- `Visibility`: who may call a function. -/
inductive Visibility where
  | «private»
  | «public»
  | script
  | friend
deriving DecidableEq, Repr

/-- `FunctionDefinition`: its handle, its visibility, the struct definitions it
may acquire, and its body if it is not native. -/
structure FunctionDefinition where
  function : ℕ
  visibility : Visibility
  acquiresGlobalResources : List ℕ
  code : Option CodeUnit
deriving DecidableEq, Repr

/-- `CompiledModule`: the tables of a module. -/
structure CompiledModule where
  version : ℕ
  selfModuleHandleIdx : ℕ
  moduleHandles : List ModuleHandle
  structHandles : List StructHandle
  functionHandles : List FunctionHandle
  fieldHandles : List FieldHandle
  friendDecls : List ModuleHandle
  structDefInstantiations : List StructDefInstantiation
  functionInstantiations : List FunctionInstantiation
  fieldInstantiations : List FieldInstantiation
  signatures : List Signature
  identifiers : List String
  addressIdentifiers : List AccountAddress
  constantPool : List Constant
  structDefs : List StructDefinition
  functionDefs : List FunctionDefinition
deriving DecidableEq, Repr

/-- `CompiledScript`: the tables of a script, and its one function. -/
structure CompiledScript where
  version : ℕ
  moduleHandles : List ModuleHandle
  structHandles : List StructHandle
  functionHandles : List FunctionHandle
  functionInstantiations : List FunctionInstantiation
  signatures : List Signature
  identifiers : List String
  addressIdentifiers : List AccountAddress
  constantPool : List Constant
  typeParameters : List AbilitySet
  parameters : ℕ
  code : CodeUnit
deriving DecidableEq, Repr

end Dijets.Move
