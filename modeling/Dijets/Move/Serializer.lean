import Dijets.Move.FileFormat
import Dijets.Move.Uleb128
import Dijets.Lib.Check

/-!
# Serializing signature tokens

A token is written node by node in preorder: each node as its tag byte (`SerializedType`)
and, for a struct, its handle's index, for an instantiation also the number of its type
arguments, and for a type parameter its position, each as a ULEB128 number under a bound.
`serialize_signature_token` walks the token with `preorder_traversal_with_depth`, the root at
depth 1, and refuses a node deeper than `SIGNATURE_TOKEN_DEPTH_MAX`;
`serialize_signature_token_unchecked`, which the tests use to build inputs the loader must
reject, walks it without the check.

What a token is written as is stated once here, in the token's own terms: `nodeBytes` for a
node and `encode` for a token, the nodes' bytes in preorder. A token can be written when its
indices are `u16` values and each instantiation has at most `SIGNATURE_SIZE_MAX` type
arguments (`Encodable`), and when the bytes fit in a binary, whose length is a `usize`.

## Main results

* `serializeSignatureTokenUnchecked_eq` — the unchecked writer appends `encode t`.
* `serializeSignatureToken_eq` — the checked one does so exactly when the depth of `t` is at
  most `SIGNATURE_TOKEN_DEPTH_MAX`, and fails with "max recursion depth reached" otherwise.
-/

set_option autoImplicit false

namespace Dijets.Move

open Dijets.Lib

/-! ## Bounds of the format -/

/-- `SIGNATURE_TOKEN_DEPTH_MAX`. -/
def SIGNATURE_TOKEN_DEPTH_MAX : ℕ := 256

/-- `SIGNATURE_SIZE_MAX`. -/
def SIGNATURE_SIZE_MAX : ℕ := 255

/-- `TABLE_INDEX_MAX`. -/
def TABLE_INDEX_MAX : ℕ := 65535

/-- `STRUCT_HANDLE_INDEX_MAX`. -/
def STRUCT_HANDLE_INDEX_MAX : ℕ := TABLE_INDEX_MAX

/-- `TYPE_PARAMETER_COUNT_MAX`. -/
def TYPE_PARAMETER_COUNT_MAX : ℕ := 255

/-- `TYPE_PARAMETER_INDEX_MAX`. -/
def TYPE_PARAMETER_INDEX_MAX : ℕ := 65536

/-- `SerializedType`: the tag of each kind of token. -/
inductive SerializedType where
  | bool
  | u8
  | u64
  | u128
  | address
  | reference
  | mutableReference
  | struct
  | typeParameter
  | vector
  | structInst
  | signer
  deriving DecidableEq, Repr

/-- `SerializedType as u8`. -/
def SerializedType.toU8 : SerializedType → UInt8
  | bool => 0x1
  | u8 => 0x2
  | u64 => 0x3
  | u128 => 0x4
  | address => 0x5
  | reference => 0x6
  | mutableReference => 0x7
  | struct => 0x8
  | typeParameter => 0x9
  | vector => 0xA
  | structInst => 0xB
  | signer => 0xC

/-! ## The serializer -/

/-- `write_as_uleb128`: a value above its bound is refused. -/
def writeAsUleb128 (binary : List UInt8) (x max : ℕ) : Except String (List UInt8) :=
  if x > max then .error ("value (" ++ toString x ++ ") cannot exceed (" ++ toString max ++ ")")
  else writeU64AsUleb128 binary x.toUInt64

/-- `serialize_struct_handle_index`. -/
def serializeStructHandleIndex (binary : List UInt8) (idx : ℕ) : Except String (List UInt8) :=
  writeAsUleb128 binary idx STRUCT_HANDLE_INDEX_MAX

/-- `serialize_signature_size`. -/
def serializeSignatureSize (binary : List UInt8) (len : ℕ) : Except String (List UInt8) :=
  writeAsUleb128 binary len SIGNATURE_SIZE_MAX

/-- `serialize_type_parameter_index`. -/
def serializeTypeParameterIndex (binary : List UInt8) (idx : ℕ) : Except String (List UInt8) :=
  writeAsUleb128 binary idx TYPE_PARAMETER_INDEX_MAX

/-- `serialize_signature_token_single_node_impl`: a token's own node, without its inner
tokens. -/
def serializeSignatureTokenSingleNodeImpl (binary : List UInt8) :
    SignatureToken → Except String (List UInt8)
  | .bool => BinaryData.push binary SerializedType.bool.toU8
  | .u8 => BinaryData.push binary SerializedType.u8.toU8
  | .u64 => BinaryData.push binary SerializedType.u64.toU8
  | .u128 => BinaryData.push binary SerializedType.u128.toU8
  | .address => BinaryData.push binary SerializedType.address.toU8
  | .signer => BinaryData.push binary SerializedType.signer.toU8
  | .vector _ => BinaryData.push binary SerializedType.vector.toU8
  | .struct idx => do
    let binary ← BinaryData.push binary SerializedType.struct.toU8
    serializeStructHandleIndex binary idx
  | .structInstantiation idx typeParams => do
    let binary ← BinaryData.push binary SerializedType.structInst.toU8
    let binary ← serializeStructHandleIndex binary idx
    serializeSignatureSize binary typeParams.length
  | .reference _ => BinaryData.push binary SerializedType.reference.toU8
  | .mutableReference _ => BinaryData.push binary SerializedType.mutableReference.toU8
  | .typeParameter idx => do
    let binary ← BinaryData.push binary SerializedType.typeParameter.toU8
    serializeTypeParameterIndex binary idx

namespace SignatureToken

mutual
/-- The nodes of a token with their depths, in the order of `preorder_traversal`, the root at
depth `depth`: the iterator pushes a token's inner tokens at one more than its own depth. -/
def preorderWithDepthFrom (depth : ℕ) : SignatureToken → List (SignatureToken × ℕ)
  | t@(vector ty) | t@(reference ty) | t@(mutableReference ty) =>
    (t, depth) :: preorderWithDepthFrom (depth + 1) ty
  | t@(structInstantiation _ tyArgs) => (t, depth) :: preorderWithDepthFromList (depth + 1) tyArgs
  | t => [(t, depth)]

/-- The traversals of a list of tokens at one depth, one after the other. -/
def preorderWithDepthFromList (depth : ℕ) : List SignatureToken → List (SignatureToken × ℕ)
  | [] => []
  | t :: ts => preorderWithDepthFrom depth t ++ preorderWithDepthFromList depth ts
end

/-- `preorder_traversal_with_depth`: the root is at depth 1. -/
def preorderTraversalWithDepth (t : SignatureToken) : List (SignatureToken × ℕ) :=
  preorderWithDepthFrom 1 t

end SignatureToken

/-- `serialize_signature_token_unchecked`: every node, in preorder. -/
def serializeSignatureTokenUnchecked (binary : List UInt8) (token : SignatureToken) :
    Except String (List UInt8) :=
  token.preorderTraversal.foldlM serializeSignatureTokenSingleNodeImpl binary

/-- One iteration of `serialize_signature_token`'s loop: a node too deep is refused. -/
def serializeNodeWithDepth (binary : List UInt8) (node : SignatureToken × ℕ) :
    Except String (List UInt8) :=
  if node.2 > SIGNATURE_TOKEN_DEPTH_MAX then .error "max recursion depth reached"
  else serializeSignatureTokenSingleNodeImpl binary node.1

/-- `serialize_signature_token`. -/
def serializeSignatureToken (binary : List UInt8) (token : SignatureToken) :
    Except String (List UInt8) :=
  token.preorderTraversalWithDepth.foldlM serializeNodeWithDepth binary

/-- `serialize_signature_tokens`: the count, then the tokens. -/
def serializeSignatureTokens (binary : List UInt8) (tokens : List SignatureToken) :
    Except String (List UInt8) := do
  let binary ← serializeSignatureSize binary tokens.length
  tokens.foldlM serializeSignatureToken binary

/-- `serialize_signature`. -/
def serializeSignature (binary : List UInt8) (signature : Signature) : Except String (List UInt8) :=
  serializeSignatureTokens binary signature

/-- The signatures of `ModuleSerializer::serialize_signatures`, one after the other; the
offset and the size of the table it records in the header are left out. -/
def serializeSignatures (binary : List UInt8) (signatures : List Signature) :
    Except String (List UInt8) :=
  signatures.foldlM serializeSignature binary

/-! ## What a token is written as -/

namespace SignatureToken

/-- The bytes of a token's own node. -/
def nodeBytes : SignatureToken → List UInt8
  | .bool => [SerializedType.bool.toU8]
  | .u8 => [SerializedType.u8.toU8]
  | .u64 => [SerializedType.u64.toU8]
  | .u128 => [SerializedType.u128.toU8]
  | .address => [SerializedType.address.toU8]
  | .signer => [SerializedType.signer.toU8]
  | .vector _ => [SerializedType.vector.toU8]
  | .struct idx => SerializedType.struct.toU8 :: Uleb128.encode idx
  | .structInstantiation idx tyArgs =>
    SerializedType.structInst.toU8 :: (Uleb128.encode idx ++ Uleb128.encode tyArgs.length)
  | .reference _ => [SerializedType.reference.toU8]
  | .mutableReference _ => [SerializedType.mutableReference.toU8]
  | .typeParameter idx => SerializedType.typeParameter.toU8 :: Uleb128.encode idx

mutual
/-- The bytes of a token: its node, then its inner tokens. -/
def encode : SignatureToken → List UInt8
  | t@(vector ty) | t@(reference ty) | t@(mutableReference ty) => nodeBytes t ++ encode ty
  | t@(structInstantiation _ tyArgs) => nodeBytes t ++ encodeList tyArgs
  | t => nodeBytes t

/-- The bytes of a list of tokens, one after the other. -/
def encodeList : List SignatureToken → List UInt8
  | [] => []
  | t :: ts => encode t ++ encodeList ts
end

mutual
/-- The nesting depth of a token, its root at depth 1. -/
def depth : SignatureToken → ℕ
  | vector ty | reference ty | mutableReference ty => depth ty + 1
  | structInstantiation _ tyArgs => depthList tyArgs + 1
  | _ => 1

/-- The greatest depth in a list of tokens, `0` for none. -/
def depthList : List SignatureToken → ℕ
  | [] => 0
  | t :: ts => max (depth t) (depthList ts)
end

/-- A node the format can write: its indices are `u16` values and an instantiation has at
most `SIGNATURE_SIZE_MAX` type arguments. -/
def NodeEncodable : SignatureToken → Prop
  | .struct idx => idx ≤ STRUCT_HANDLE_INDEX_MAX
  | .structInstantiation idx tyArgs => idx ≤ STRUCT_HANDLE_INDEX_MAX ∧ tyArgs.length ≤ SIGNATURE_SIZE_MAX
  | .typeParameter idx => idx < 2 ^ 16
  | _ => True

instance : DecidablePred NodeEncodable
  | .struct idx => inferInstanceAs (Decidable (idx ≤ STRUCT_HANDLE_INDEX_MAX))
  | .structInstantiation idx tyArgs =>
    inferInstanceAs (Decidable (idx ≤ STRUCT_HANDLE_INDEX_MAX ∧ tyArgs.length ≤ SIGNATURE_SIZE_MAX))
  | .typeParameter idx => inferInstanceAs (Decidable (idx < 2 ^ 16))
  | .bool | .u8 | .u64 | .u128 | .address | .signer | .vector _ | .reference _
  | .mutableReference _ => inferInstanceAs (Decidable True)

/-- Every node of the token can be written. -/
def Encodable (t : SignatureToken) : Prop := ∀ n ∈ t.preorderTraversal, NodeEncodable n

instance : DecidablePred Encodable := fun t =>
  inferInstanceAs (Decidable (∀ n ∈ t.preorderTraversal, NodeEncodable n))

theorem preorderTraversalList_eq_flatMap (ts : List SignatureToken) :
    preorderTraversalList ts = ts.flatMap preorderTraversal := by
  induction ts with
  | nil => rfl
  | cons t ts ih => rw [preorderTraversalList, ih, List.flatMap_cons]

theorem encodeList_eq_flatMap (ts : List SignatureToken) : encodeList ts = ts.flatMap encode := by
  induction ts with
  | nil => rfl
  | cons t ts ih => rw [encodeList, ih, List.flatMap_cons]

mutual
/-- The bytes of a token are the bytes of its nodes, in preorder. -/
theorem encode_eq_flatMap : (t : SignatureToken) → t.encode = t.preorderTraversal.flatMap nodeBytes
  | vector ty | reference ty | mutableReference ty => by
    rw [encode, preorderTraversal, List.flatMap_cons, encode_eq_flatMap ty]
  | structInstantiation _ tyArgs => by
    rw [encode, preorderTraversal, List.flatMap_cons, encodeList_eq_flatMap_preorder tyArgs]
  | bool | u8 | u64 | u128 | address | signer | struct _ | typeParameter _ => by
    simp [encode, preorderTraversal]

theorem encodeList_eq_flatMap_preorder :
    (ts : List SignatureToken) → encodeList ts = (preorderTraversalList ts).flatMap nodeBytes
  | [] => rfl
  | t :: ts => by
    rw [encodeList, preorderTraversalList, List.flatMap_append, encode_eq_flatMap t,
      encodeList_eq_flatMap_preorder ts]
end

mutual
/-- Without its depths, the traversal with depths is `preorder_traversal`. -/
theorem map_fst_preorderWithDepthFrom :
    (d : ℕ) → (t : SignatureToken) → (preorderWithDepthFrom d t).map Prod.fst = t.preorderTraversal
  | d, vector ty | d, reference ty | d, mutableReference ty => by
    rw [preorderWithDepthFrom, List.map_cons, map_fst_preorderWithDepthFrom (d + 1) ty,
      preorderTraversal]
  | d, structInstantiation _ tyArgs => by
    rw [preorderWithDepthFrom, List.map_cons, map_fst_preorderWithDepthFromList (d + 1) tyArgs,
      preorderTraversal]
  | _, bool | _, u8 | _, u64 | _, u128 | _, address | _, signer | _, struct _
  | _, typeParameter _ => rfl

theorem map_fst_preorderWithDepthFromList :
    (d : ℕ) → (ts : List SignatureToken) →
      (preorderWithDepthFromList d ts).map Prod.fst = preorderTraversalList ts
  | _, [] => rfl
  | d, t :: ts => by
    rw [preorderWithDepthFromList, List.map_append, map_fst_preorderWithDepthFrom d t,
      map_fst_preorderWithDepthFromList d ts, preorderTraversalList]
end

theorem one_le_depth (t : SignatureToken) : 1 ≤ t.depth := by
  cases t <;> simp [depth]

theorem depthList_le_iff {ts : List SignatureToken} {k : ℕ} :
    depthList ts ≤ k ↔ ∀ t ∈ ts, t.depth ≤ k := by
  induction ts with
  | nil => simp [depthList]
  | cons t ts ih => rw [depthList, max_le_iff, ih, List.forall_mem_cons]

mutual
/-- **The traversal's depths are bounded by the token's depth**: every node of a token whose
root is at depth `d` is at most at depth `m` exactly when `d + depth - 1 ≤ m`. -/
theorem forall_preorderWithDepthFrom_le :
    (d m : ℕ) → (t : SignatureToken) →
      ((∀ p ∈ preorderWithDepthFrom d t, p.2 ≤ m) ↔ d + t.depth ≤ m + 1)
  | d, m, vector ty | d, m, reference ty | d, m, mutableReference ty => by
    rw [preorderWithDepthFrom, List.forall_mem_cons, forall_preorderWithDepthFrom_le (d + 1) m ty,
      depth]
    have := one_le_depth ty
    omega
  | d, m, structInstantiation _ tyArgs => by
    rw [preorderWithDepthFrom, List.forall_mem_cons,
      forall_preorderWithDepthFromList_le (d + 1) m tyArgs, depth]
    -- the instantiation's node, and each type argument one level down
    have hle : depthList tyArgs ≤ m - d ↔ ∀ t ∈ tyArgs, t.depth ≤ m - d := depthList_le_iff
    constructor
    · rintro ⟨hd, hargs⟩
      have : depthList tyArgs ≤ m - d := hle.mpr fun t ht => by have := hargs t ht; omega
      omega
    · intro h
      refine ⟨by omega, fun t ht => ?_⟩
      have := hle.mp (by omega) t ht
      omega
  | d, m, bool | d, m, u8 | d, m, u64 | d, m, u128 | d, m, address | d, m, signer
  | d, m, struct _ | d, m, typeParameter _ => by
    simp [preorderWithDepthFrom, depth]

theorem forall_preorderWithDepthFromList_le :
    (d m : ℕ) → (ts : List SignatureToken) →
      ((∀ p ∈ preorderWithDepthFromList d ts, p.2 ≤ m) ↔ ∀ t ∈ ts, d + t.depth ≤ m + 1)
  | _, _, [] => by simp [preorderWithDepthFromList]
  | d, m, t :: ts => by
    rw [preorderWithDepthFromList, List.forall_mem_append, forall_preorderWithDepthFrom_le d m t,
      forall_preorderWithDepthFromList_le d m ts, List.forall_mem_cons]
end

end SignatureToken

open SignatureToken

/-! ## The serializer writes `encode` -/

theorem writeAsUleb128_eq {binary : List UInt8} {x max : ℕ} (hx : x ≤ max) (hmax : max < 2 ^ 64)
    (hfit : binary.length + (Uleb128.encode x).length < 2 ^ 64) :
    writeAsUleb128 binary x max = .ok (binary ++ Uleb128.encode x) := by
  have hto : x.toUInt64.toNat = x := by
    rw [Nat.toUInt64_eq, UInt64.toNat_ofNat', Nat.mod_eq_of_lt (by omega)]
  rw [writeAsUleb128, if_neg (by omega), writeU64AsUleb128_eq binary x.toUInt64 (by rw [hto]; exact hfit),
    hto]

/-- **One node.** A node the format can write, with room left in the binary, is written as
its `nodeBytes`. -/
theorem serializeSignatureTokenSingleNodeImpl_eq {binary : List UInt8} {t : SignatureToken}
    (ht : NodeEncodable t) (hfit : binary.length + t.nodeBytes.length < 2 ^ 64) :
    serializeSignatureTokenSingleNodeImpl binary t = .ok (binary ++ t.nodeBytes) := by
  cases t with
  | struct idx =>
    simp only [nodeBytes, List.length_cons] at hfit
    rw [serializeSignatureTokenSingleNodeImpl, push_eq_ok (by omega), Check.ok_bind,
      serializeStructHandleIndex, writeAsUleb128_eq ht (by decide) (by simp; omega)]
    simp [nodeBytes]
  | structInstantiation idx tyArgs =>
    -- the tag, the handle's index, then the number of type arguments
    simp only [nodeBytes, List.length_cons, List.length_append] at hfit
    rw [serializeSignatureTokenSingleNodeImpl, push_eq_ok (by omega), Check.ok_bind,
      serializeStructHandleIndex, writeAsUleb128_eq ht.1 (by decide) (by simp; omega), Check.ok_bind,
      serializeSignatureSize, writeAsUleb128_eq ht.2 (by decide) (by simp; omega)]
    simp [nodeBytes]
  | typeParameter idx =>
    simp only [nodeBytes, List.length_cons] at hfit
    have hidx : idx ≤ TYPE_PARAMETER_INDEX_MAX := by
      simp only [NodeEncodable] at ht
      simp only [TYPE_PARAMETER_INDEX_MAX]
      omega
    rw [serializeSignatureTokenSingleNodeImpl, push_eq_ok (by omega), Check.ok_bind,
      serializeTypeParameterIndex, writeAsUleb128_eq hidx (by decide) (by simp; omega)]
    simp [nodeBytes]
  | bool | u8 | u64 | u128 | address | signer | vector _ | reference _ | mutableReference _ =>
    simp only [nodeBytes, List.length_singleton] at hfit
    exact push_eq_ok hfit

/-- Nodes the format can write, with room for all of them, are written one after the other. -/
theorem foldlM_serializeSignatureTokenSingleNodeImpl {nodes : List SignatureToken}
    (hnodes : ∀ n ∈ nodes, NodeEncodable n) :
    ∀ {binary : List UInt8}, binary.length + (nodes.flatMap nodeBytes).length < 2 ^ 64 →
      nodes.foldlM serializeSignatureTokenSingleNodeImpl binary =
        .ok (binary ++ nodes.flatMap nodeBytes) := by
  intro binary
  exact Check.foldlM_append_eq nodeBytes NodeEncodable (2 ^ 64)
    (fun _ _ hn hfit => serializeSignatureTokenSingleNodeImpl_eq hn hfit) hnodes

/-- **The unchecked writer** writes a token the format can write as `encode`. -/
theorem serializeSignatureTokenUnchecked_eq {binary : List UInt8} {t : SignatureToken}
    (ht : t.Encodable) (hfit : binary.length + t.encode.length < 2 ^ 64) :
    serializeSignatureTokenUnchecked binary t = .ok (binary ++ t.encode) := by
  rw [encode_eq_flatMap] at hfit ⊢
  exact foldlM_serializeSignatureTokenSingleNodeImpl ht hfit

/-- The depth-checked loop over nodes the format can write: all are written if none is too
deep, and the first too deep stops it. -/
theorem foldlM_serializeNodeWithDepth {nodes : List (SignatureToken × ℕ)}
    (hnodes : ∀ p ∈ nodes, NodeEncodable p.1) :
    ∀ {binary : List UInt8}, binary.length + ((nodes.map Prod.fst).flatMap nodeBytes).length < 2 ^ 64 →
      nodes.foldlM serializeNodeWithDepth binary =
        if ∀ p ∈ nodes, p.2 ≤ SIGNATURE_TOKEN_DEPTH_MAX then
          .ok (binary ++ (nodes.map Prod.fst).flatMap nodeBytes)
        else .error "max recursion depth reached" := by
  induction nodes with
  | nil => intro binary _; simp [pure, Except.pure]
  | cons p nodes ih =>
    intro binary hfit
    rw [List.map_cons, List.flatMap_cons, List.length_append] at hfit
    rw [List.foldlM_cons]
    by_cases hp : p.2 ≤ SIGNATURE_TOKEN_DEPTH_MAX
    · -- the node is written, and the loop goes on
      have hrest := ih (fun q hq => hnodes q (List.mem_cons_of_mem p hq))
        (show (binary ++ p.1.nodeBytes).length + _ < 2 ^ 64 by rw [List.length_append]; omega)
      rw [serializeNodeWithDepth, if_neg (by omega),
        serializeSignatureTokenSingleNodeImpl_eq (hnodes p List.mem_cons_self) (by omega),
        Check.ok_bind, hrest]
      simp only [List.forall_mem_cons, hp, true_and, List.map_cons, List.flatMap_cons,
        List.append_assoc]
    · rw [serializeNodeWithDepth, if_pos (by omega), if_neg (by simp [hp])]
      rfl

/-- **The checked writer** writes a token the format can write as `encode` when its depth is
at most `SIGNATURE_TOKEN_DEPTH_MAX`, and refuses it otherwise. -/
theorem serializeSignatureToken_eq {binary : List UInt8} {t : SignatureToken}
    (ht : t.Encodable) (hfit : binary.length + t.encode.length < 2 ^ 64) :
    serializeSignatureToken binary t =
      if t.depth ≤ SIGNATURE_TOKEN_DEPTH_MAX then .ok (binary ++ t.encode)
      else .error "max recursion depth reached" := by
  have hmap := map_fst_preorderWithDepthFrom 1 t
  have hnodes : ∀ p ∈ t.preorderTraversalWithDepth, NodeEncodable p.1 := fun p hp =>
    ht p.1 (hmap ▸ List.mem_map_of_mem hp)
  rw [encode_eq_flatMap, ← hmap] at hfit
  rw [serializeSignatureToken, foldlM_serializeNodeWithDepth hnodes hfit, preorderTraversalWithDepth,
    hmap, ← encode_eq_flatMap]
  -- the deepest node decides
  have hdepth := forall_preorderWithDepthFrom_le 1 SIGNATURE_TOKEN_DEPTH_MAX t
  by_cases hd : t.depth ≤ SIGNATURE_TOKEN_DEPTH_MAX
  · rw [if_pos (hdepth.mpr (by omega)), if_pos hd]
  · rw [if_neg (fun h => hd (by have := hdepth.mp h; omega)), if_neg hd]

/-! ## Signatures -/

/-- The bytes of a signature: its length, then its tokens. -/
def encodeSignature (s : Signature) : List UInt8 := Uleb128.encode s.length ++ encodeList s

/-- A token the checked writer writes: every node can be written, and it is not too deep. -/
def Writable (t : SignatureToken) : Prop := t.Encodable ∧ t.depth ≤ SIGNATURE_TOKEN_DEPTH_MAX

/-- Tokens the checked writer writes, with room for all of them, are written one after the
other. -/
theorem foldlM_serializeSignatureToken {tokens : List SignatureToken} (ht : ∀ t ∈ tokens, Writable t)
    {binary : List UInt8} (hfit : binary.length + (encodeList tokens).length < 2 ^ 64) :
    tokens.foldlM serializeSignatureToken binary = .ok (binary ++ encodeList tokens) := by
  rw [encodeList_eq_flatMap] at hfit ⊢
  refine Check.foldlM_append_eq encode Writable (2 ^ 64) (fun b t ht hfit => ?_) ht hfit
  rw [serializeSignatureToken_eq ht.1 hfit, if_pos ht.2]

/-- **A signature** of at most `SIGNATURE_SIZE_MAX` tokens the checked writer writes is
written as its length, then its tokens. -/
theorem serializeSignature_eq {binary : List UInt8} {s : Signature}
    (hlen : s.length ≤ SIGNATURE_SIZE_MAX) (ht : ∀ t ∈ s, Writable t)
    (hfit : binary.length + (encodeSignature s).length < 2 ^ 64) :
    serializeSignature binary s = .ok (binary ++ encodeSignature s) := by
  rw [encodeSignature, List.length_append] at hfit
  rw [serializeSignature, serializeSignatureTokens, serializeSignatureSize,
    writeAsUleb128_eq hlen (by decide) (by omega), Check.ok_bind,
    foldlM_serializeSignatureToken ht (by rw [List.length_append]; omega), encodeSignature,
    List.append_assoc]

/-- A signature the serializer writes. -/
def SignatureWritable (s : Signature) : Prop := s.length ≤ SIGNATURE_SIZE_MAX ∧ ∀ t ∈ s, Writable t

instance : DecidablePred Writable := fun t =>
  inferInstanceAs (Decidable (t.Encodable ∧ t.depth ≤ SIGNATURE_TOKEN_DEPTH_MAX))

instance : DecidablePred SignatureWritable := fun s =>
  inferInstanceAs (Decidable (s.length ≤ SIGNATURE_SIZE_MAX ∧ ∀ t ∈ s, Writable t))

/-- **The signature pool** is written as its signatures, one after the other. -/
theorem serializeSignatures_eq {signatures : List Signature}
    (hs : ∀ s ∈ signatures, SignatureWritable s) {binary : List UInt8}
    (hfit : binary.length + (signatures.flatMap encodeSignature).length < 2 ^ 64) :
    serializeSignatures binary signatures = .ok (binary ++ signatures.flatMap encodeSignature) :=
  Check.foldlM_append_eq encodeSignature SignatureWritable (2 ^ 64)
    (fun _ _ hs hfit => serializeSignature_eq hs.1 hs.2 hfit) hs hfit

end Dijets.Move
