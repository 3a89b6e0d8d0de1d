import Dijets.Move.Serializer
import Dijets.Move.Errors
import Dijets.Lib.Outcome

/-!
# Loading signature tokens

`load_signature_token` reads a token without recursion. It keeps a stack of partly built
types (`TypeBuilder`): a vector or a reference waiting for its inner token, an instantiation
waiting for the rest of its type arguments, or a finished (saturated) token on top. A
finished token on top is given to the builder under it, or returned if there is none;
otherwise the next node is read and pushed. A stack higher than `SIGNATURE_TOKEN_DEPTH_MAX`
is refused. An instantiation's builder is saturated once it holds at least as many type
arguments as its arity, which it checks only after a type argument is given to it: an
instantiation read with arity `0` takes the token after it as its one type argument.

The cursor is modelled by the bytes it has left, and the loader returns the token with the
bytes after it. `Outcome` keeps the loader's panics apart from its errors: the `unwrap`s and
`unreachable!`s of the source.

The stack's height is the depth of the node on top, so the loader accepts the encoding of a
token exactly when the serializer's depth check does (`loadSignatureToken_encode`). Both are
stated for the tokens the serializer can write whose instantiations have type arguments; one
without any takes the token after it (`loadSignatureToken_zeroArity`), which breaks the round
trip of the signature pool (`Dijets.Move.SignaturePool`).

## Main results

* `loop_encode` — from the builder of a token's node, the loop reads the token's inner tokens
  and ends with the token finished on top, when the stack stays low enough.
* `loop_encode_error` — when it does not, the loop fails.
* `loadSignatureToken_encode` — the loader reads back the tokens whose depth is at most
  `SIGNATURE_TOKEN_DEPTH_MAX` and refuses the deeper ones.
* `signature_token_depth_agrees` — the checked writer and the loader accept the same tokens.
* `serialize_wide_instantiation_fails` — the writer also refuses an instantiation of more
  than `SIGNATURE_SIZE_MAX` type arguments, however shallow.
-/

set_option autoImplicit false

namespace Dijets.Move

open Dijets.Lib PartialVMError SignatureToken

/-! ## Reading numbers and tags -/

/-- The error of a malformed binary. -/
def malformed (message : String) : PartialVMError := (new .malformed).withMessage message

/-- `read_uleb_internal`, into an integer type of `2 ^ bits` values. -/
def readUlebInternal (bits : ℕ) (cursor : List UInt8) (max : ℕ) :
    Except PartialVMError (ℕ × List UInt8) :=
  match readUleb128AsU64 cursor with
  | .error _ => .error (malformed "Bad Uleb")
  | .ok (x, cursor) =>
    if x.toNat > max then .error (malformed "Uleb greater than max requested")
    else if x.toNat < 2 ^ bits then .ok (x.toNat, cursor)
    else .error ((new .unknownInvariantViolationError).withMessage
      "Failed to convert u64 to target integer type. This should not happen. Is the maximum value correct?")

/-- `load_struct_handle_index`, a `u16`. -/
def loadStructHandleIndex (cursor : List UInt8) : Except PartialVMError (ℕ × List UInt8) :=
  readUlebInternal 16 cursor STRUCT_HANDLE_INDEX_MAX

/-- `load_type_parameter_count`, a `usize`. -/
def loadTypeParameterCount (cursor : List UInt8) : Except PartialVMError (ℕ × List UInt8) :=
  readUlebInternal 64 cursor TYPE_PARAMETER_COUNT_MAX

/-- `load_type_parameter_index`, a `u16`. -/
def loadTypeParameterIndex (cursor : List UInt8) : Except PartialVMError (ℕ × List UInt8) :=
  readUlebInternal 16 cursor TYPE_PARAMETER_INDEX_MAX

/-- `load_signature_size`, a `u64`. -/
def loadSignatureSize (cursor : List UInt8) : Except PartialVMError (ℕ × List UInt8) :=
  readUlebInternal 64 cursor SIGNATURE_SIZE_MAX

/-- `SerializedType::from_u8`. -/
def SerializedType.fromU8 (value : UInt8) : Except PartialVMError SerializedType :=
  if value = 0x1 then .ok .bool
  else if value = 0x2 then .ok .u8
  else if value = 0x3 then .ok .u64
  else if value = 0x4 then .ok .u128
  else if value = 0x5 then .ok .address
  else if value = 0x6 then .ok .reference
  else if value = 0x7 then .ok .mutableReference
  else if value = 0x8 then .ok .struct
  else if value = 0x9 then .ok .typeParameter
  else if value = 0xA then .ok .vector
  else if value = 0xB then .ok .structInst
  else if value = 0xC then .ok .signer
  else .error (new .unknownSerializedType)

theorem SerializedType.fromU8_toU8 (st : SerializedType) : fromU8 st.toU8 = .ok st := by
  cases st <;> rfl

/-! ## The loader -/

/-- `TypeBuilder`: a finished token, or a type waiting for inner tokens. -/
inductive TypeBuilder where
  | saturated (tok : SignatureToken)
  | vector
  | reference
  | mutableReference
  | structInst (shIdx : ℕ) (arity : ℕ) (tyArgs : List SignatureToken)

namespace TypeBuilder

/-- `TypeBuilder::apply`; `none` is its `unreachable!` on a finished token. -/
def apply : TypeBuilder → SignatureToken → Option TypeBuilder
  | vector, tok => some (saturated (.vector tok))
  | reference, tok => some (saturated (.reference tok))
  | mutableReference, tok => some (saturated (.mutableReference tok))
  | structInst shIdx arity tyArgs, tok =>
    let tyArgs := tyArgs ++ [tok]
    if tyArgs.length ≥ arity then some (saturated (.structInstantiation shIdx tyArgs))
    else some (structInst shIdx arity tyArgs)
  | saturated _, _ => none

/-- `TypeBuilder::is_saturated`. -/
def isSaturated : TypeBuilder → Bool
  | saturated _ => true
  | _ => false

theorem isSaturated_eq_false {top : TypeBuilder} (h : ∀ tok, top = saturated tok → False) :
    top.isSaturated = false := by
  cases top with
  | saturated tok => exact absurd rfl (h tok)
  | vector | reference | mutableReference | structInst _ _ _ => rfl

end TypeBuilder

/-- The arms of `read_next` after the tag byte. -/
def readNextOf (st : SerializedType) (cursor : List UInt8) :
    Except PartialVMError (TypeBuilder × List UInt8) :=
  match st with
  | .bool => .ok (.saturated .bool, cursor)
  | .u8 => .ok (.saturated .u8, cursor)
  | .u64 => .ok (.saturated .u64, cursor)
  | .u128 => .ok (.saturated .u128, cursor)
  | .address => .ok (.saturated .address, cursor)
  | .signer => .ok (.saturated .signer, cursor)
  | .vector => .ok (.vector, cursor)
  | .reference => .ok (.reference, cursor)
  | .mutableReference => .ok (.mutableReference, cursor)
  | .struct => do
    let (shIdx, cursor) ← loadStructHandleIndex cursor
    pure (.saturated (.struct shIdx), cursor)
  | .structInst => do
    let (shIdx, cursor) ← loadStructHandleIndex cursor
    let (arity, cursor) ← loadTypeParameterCount cursor
    pure (.structInst shIdx arity [], cursor)
  | .typeParameter => do
    let (idx, cursor) ← loadTypeParameterIndex cursor
    pure (.saturated (.typeParameter idx), cursor)

/-- `read_next`: the next node, or "Unexpected EOF". -/
def readNext : List UInt8 → Except PartialVMError (TypeBuilder × List UInt8)
  | [] => .error (malformed "Unexpected EOF")
  | byte :: cursor => do
    let st ← SerializedType.fromU8 byte
    readNextOf st cursor

theorem length_lt_of_readUlebInternal {bits max n : ℕ} {cursor rest : List UInt8}
    (h : readUlebInternal bits cursor max = .ok (n, rest)) : rest.length < cursor.length := by
  unfold readUlebInternal at h
  split at h
  · cases h
  · rename_i x cursor' hread
    split_ifs at h
    obtain ⟨-, rfl⟩ := Prod.mk.inj (Except.ok.inj h)
    exact length_lt_of_readUleb128Loop cursor hread

/-- The arms of `read_next` read no byte before the cursor they are given. -/
theorem length_le_of_readNextOf {st : SerializedType} {cursor rest : List UInt8} {b : TypeBuilder}
    (h : readNextOf st cursor = .ok (b, rest)) : rest.length ≤ cursor.length := by
  cases st with
  | struct =>
    simp only [readNextOf, Check.bind_eq_ok] at h
    obtain ⟨⟨idx, c₁⟩, h₁, h⟩ := h
    cases h
    exact (length_lt_of_readUlebInternal h₁).le
  | structInst =>
    simp only [readNextOf, Check.bind_eq_ok] at h
    obtain ⟨⟨idx, c₁⟩, h₁, ⟨arity, c₂⟩, h₂, h⟩ := h
    cases h
    have h₁' : c₁.length < cursor.length := length_lt_of_readUlebInternal h₁
    have h₂' : c₂.length < c₁.length := length_lt_of_readUlebInternal h₂
    dsimp only
    omega
  | typeParameter =>
    simp only [readNextOf, Check.bind_eq_ok] at h
    obtain ⟨⟨idx, c₁⟩, h₁, h⟩ := h
    cases h
    exact (length_lt_of_readUlebInternal h₁).le
  | bool | u8 | u64 | u128 | address | signer | vector | reference | mutableReference =>
    cases h
    exact le_rfl

/-- `read_next` takes at least its tag byte. -/
theorem length_lt_of_readNext {cursor rest : List UInt8} {b : TypeBuilder}
    (h : readNext cursor = .ok (b, rest)) : rest.length < cursor.length := by
  cases cursor with
  | nil => cases h
  | cons byte cursor =>
    simp only [readNext, Check.bind_eq_ok] at h
    obtain ⟨st, -, h⟩ := h
    have := length_le_of_readNextOf h
    simp only [List.length_cons]
    omega

-- the name of the read's result is used only by `decreasing_by`
set_option linter.unusedVariables false in
/-- The loop of `load_signature_token`, over the stack (its top first) and the bytes left.
Each step either reads a node, taking a byte, or gives the finished top to the builder under
it, lowering the stack. -/
def loadSignatureTokenLoop (stack : List TypeBuilder) (cursor : List UInt8) :
    Outcome PartialVMError (SignatureToken × List UInt8) :=
  if stack.length > SIGNATURE_TOKEN_DEPTH_MAX then .err (malformed "Maximum recursion depth reached")
  else
    match stack with
    -- `stack.last().unwrap()`
    | [] => .panic
    | .saturated tok :: rest =>
      match rest with
      | [] => .ok (tok, cursor)
      | t :: rest => do
        let t ← Outcome.ofOption (t.apply tok)
        loadSignatureTokenLoop (t :: rest) cursor
    | top :: rest =>
      match h : readNext cursor with
      | .error e => .err e
      | .ok (b, cursor') => loadSignatureTokenLoop (b :: top :: rest) cursor'
termination_by 2 * cursor.length + stack.length
decreasing_by
  · simp only [List.length_cons]
    omega
  · have := length_lt_of_readNext h
    simp only [List.length_cons]
    omega

/-- `load_signature_token`. -/
def loadSignatureToken (cursor : List UInt8) : Outcome PartialVMError (SignatureToken × List UInt8) :=
  match readNext cursor with
  | .error e => .err e
  | .ok (.saturated tok, cursor) => .ok (tok, cursor)
  | .ok (t, cursor) => loadSignatureTokenLoop [t] cursor

/-- The loop of `load_signature_tokens`: `len` tokens, one after the other. -/
def loadTokens : ℕ → List UInt8 → Outcome PartialVMError (List SignatureToken × List UInt8)
  | 0, cursor => .ok ([], cursor)
  | len + 1, cursor => do
    let (tok, cursor) ← loadSignatureToken cursor
    let (tokens, cursor) ← loadTokens len cursor
    pure (tok :: tokens, cursor)

/-- `load_signature_tokens`: the count, then the tokens. -/
def loadSignatureTokens (cursor : List UInt8) :
    Outcome PartialVMError (List SignatureToken × List UInt8) := do
  let (len, cursor) ← Outcome.ofExcept (loadSignatureSize cursor)
  loadTokens len cursor

/-! ## The loader reads back what the serializer writes -/

/-- The builder the loader pushes for a token's node. -/
def builderOf : SignatureToken → TypeBuilder
  | .vector _ => .vector
  | .reference _ => .reference
  | .mutableReference _ => .mutableReference
  | .structInstantiation idx tyArgs => .structInst idx tyArgs.length []
  | t => .saturated t

/-- The inner tokens of a token. -/
def SignatureToken.children : SignatureToken → List SignatureToken
  | .vector ty | .reference ty | .mutableReference ty => [ty]
  | .structInstantiation _ tyArgs => tyArgs
  | _ => []

/-- A node that is not an instantiation without type arguments. -/
def SignatureToken.NodeHasTypeArguments : SignatureToken → Prop
  | .structInstantiation _ tyArgs => tyArgs ≠ []
  | _ => True

/-- No instantiation in the token is without type arguments. -/
def SignatureToken.HasTypeArguments (t : SignatureToken) : Prop :=
  ∀ n ∈ t.preorderTraversal, n.NodeHasTypeArguments

instance : DecidablePred SignatureToken.NodeHasTypeArguments
  | .structInstantiation _ tyArgs => inferInstanceAs (Decidable (tyArgs ≠ []))
  | .bool | .u8 | .u64 | .u128 | .address | .signer | .vector _ | .reference _
  | .mutableReference _ | .struct _ | .typeParameter _ => inferInstanceAs (Decidable True)

instance : DecidablePred SignatureToken.HasTypeArguments := fun t =>
  inferInstanceAs (Decidable (∀ n ∈ t.preorderTraversal, n.NodeHasTypeArguments))

theorem encode_eq_nodeBytes_append (t : SignatureToken) :
    t.encode = t.nodeBytes ++ encodeList t.children := by
  cases t <;> simp [encode, encodeList, SignatureToken.children]

theorem preorderTraversal_eq_cons (t : SignatureToken) :
    t.preorderTraversal = t :: t.children.flatMap preorderTraversal := by
  cases t <;> simp [preorderTraversal, SignatureToken.children, preorderTraversalList_eq_flatMap]

/-- A property of every node holds of the token's own node and of every node of its inner
tokens. -/
theorem forall_preorderTraversal_iff {P : SignatureToken → Prop} {t : SignatureToken} :
    (∀ n ∈ t.preorderTraversal, P n) ↔ P t ∧ ∀ c ∈ t.children, ∀ n ∈ c.preorderTraversal, P n := by
  rw [preorderTraversal_eq_cons, List.forall_mem_cons]
  simp only [List.mem_flatMap]
  constructor
  · rintro ⟨ht, hc⟩
    exact ⟨ht, fun c hc' n hn => hc n ⟨c, hc', hn⟩⟩
  · rintro ⟨ht, hc⟩
    exact ⟨ht, fun n ⟨c, hc', hn⟩ => hc c hc' n hn⟩

theorem depth_eq_of_children (t : SignatureToken) (h : t.children ≠ []) :
    t.depth = depthList t.children + 1 := by
  cases t <;> simp_all [depth, depthList, SignatureToken.children]

theorem builderOf_of_children_eq_nil {t : SignatureToken} (h : t.children = [])
    (hargs : t.NodeHasTypeArguments) : builderOf t = .saturated t := by
  cases t with
  | structInstantiation idx tyArgs => exact absurd h hargs
  | vector _ | reference _ | mutableReference _ => cases h
  | bool | u8 | u64 | u128 | address | signer | struct _ | typeParameter _ => rfl

theorem depth_of_children_eq_nil {t : SignatureToken} (h : t.children = [])
    (hargs : t.NodeHasTypeArguments) : t.depth = 1 := by
  cases t with
  | structInstantiation idx tyArgs => exact absurd h hargs
  | vector _ | reference _ | mutableReference _ => cases h
  | bool | u8 | u64 | u128 | address | signer | struct _ | typeParameter _ => rfl

theorem readUlebInternal_encode {bits x max : ℕ} (hx : x ≤ max) (hbits : x < 2 ^ bits)
    (h64 : x < 2 ^ 64) (r : List UInt8) :
    readUlebInternal bits (Uleb128.encode x ++ r) max = .ok (x, r) := by
  have hto : x.toUInt64.toNat = x := by
    rw [Nat.toUInt64_eq, UInt64.toNat_ofNat', Nat.mod_eq_of_lt h64]
  rw [readUlebInternal, readUleb128AsU64_encode h64]
  simp only [hto, if_neg (show ¬ x > max by omega), if_pos hbits]

/-- **One node.** The loader reads a node the serializer writes as the node's builder. -/
theorem readNext_nodeBytes {t : SignatureToken} (ht : t.NodeEncodable) (r : List UInt8) :
    readNext (t.nodeBytes ++ r) = .ok (builderOf t, r) := by
  cases t with
  | struct idx =>
    simp only [NodeEncodable, STRUCT_HANDLE_INDEX_MAX, TABLE_INDEX_MAX] at ht
    simp only [nodeBytes, List.cons_append, readNext, SerializedType.fromU8_toU8, Check.ok_bind,
      readNextOf, loadStructHandleIndex]
    rw [readUlebInternal_encode (by simpa [STRUCT_HANDLE_INDEX_MAX, TABLE_INDEX_MAX] using ht)
      (by omega) (by omega)]
    rfl
  | structInstantiation idx tyArgs =>
    simp only [NodeEncodable, STRUCT_HANDLE_INDEX_MAX, TABLE_INDEX_MAX, SIGNATURE_SIZE_MAX] at ht
    simp only [nodeBytes, List.cons_append, List.append_assoc, readNext, SerializedType.fromU8_toU8,
      Check.ok_bind, readNextOf, loadStructHandleIndex, loadTypeParameterCount]
    rw [readUlebInternal_encode (by simpa [STRUCT_HANDLE_INDEX_MAX, TABLE_INDEX_MAX] using ht.1)
      (by omega) (by omega)]
    simp only [Check.ok_bind]
    rw [readUlebInternal_encode (by simpa [TYPE_PARAMETER_COUNT_MAX] using ht.2) (by omega) (by omega)]
    rfl
  | typeParameter idx =>
    simp only [NodeEncodable] at ht
    simp only [nodeBytes, List.cons_append, readNext, SerializedType.fromU8_toU8, Check.ok_bind,
      readNextOf, loadTypeParameterIndex]
    rw [readUlebInternal_encode (by simp [TYPE_PARAMETER_INDEX_MAX]; omega) ht (by omega)]
    rfl
  | bool | u8 | u64 | u128 | address | signer | vector _ | reference _ | mutableReference _ => rfl

/-! ### The steps of the loop -/

section Loop

variable {stack : List TypeBuilder} {cursor : List UInt8}

theorem loop_of_lt (h : SIGNATURE_TOKEN_DEPTH_MAX < stack.length) :
    loadSignatureTokenLoop stack cursor = .err (malformed "Maximum recursion depth reached") := by
  rw [loadSignatureTokenLoop.eq_def, if_pos h]

theorem loop_saturated_nil {tok : SignatureToken} :
    loadSignatureTokenLoop [.saturated tok] cursor = .ok (tok, cursor) := by
  rw [loadSignatureTokenLoop.eq_def, if_neg (by simp [SIGNATURE_TOKEN_DEPTH_MAX])]

/-- A finished token on top is given to the builder under it. -/
theorem loop_saturated_cons {tok : SignatureToken} {t : TypeBuilder} {rest : List TypeBuilder}
    (h : rest.length + 2 ≤ SIGNATURE_TOKEN_DEPTH_MAX) :
    loadSignatureTokenLoop (.saturated tok :: t :: rest) cursor =
      (Outcome.ofOption (t.apply tok)).bind fun t => loadSignatureTokenLoop (t :: rest) cursor := by
  rw [loadSignatureTokenLoop.eq_def, if_neg (by simp only [List.length_cons]; omega)]
  rfl

/-- A builder waiting for an inner token reads the next node. -/
theorem loop_waiting {top : TypeBuilder} {rest : List TypeBuilder} (htop : top.isSaturated = false)
    (h : rest.length + 1 ≤ SIGNATURE_TOKEN_DEPTH_MAX) :
    loadSignatureTokenLoop (top :: rest) cursor =
      match readNext cursor with
      | .error e => .err e
      | .ok (b, cursor') => loadSignatureTokenLoop (b :: top :: rest) cursor' := by
  rw [loadSignatureTokenLoop.eq_def, if_neg (by simp only [List.length_cons]; omega)]
  cases top with
  | saturated _ => cases htop
  | vector | reference | mutableReference | structInst _ _ _ =>
    -- only the third arm of the loop's match applies to a builder that waits
    split
    · rename_i he
      cases he
    · rename_i he
      cases he
    · rename_i heq
      obtain ⟨rfl, rfl⟩ := List.cons.inj heq
      split
      · rename_i e hr
        rw [hr]
      · rename_i b c hr
        rw [hr]

/-- A waiting builder pushes the builder of the node it reads. -/
theorem loop_read {top : TypeBuilder} {rest : List TypeBuilder} (htop : top.isSaturated = false)
    (h : rest.length + 1 ≤ SIGNATURE_TOKEN_DEPTH_MAX) {b : TypeBuilder} {cursor' : List UInt8}
    (hread : readNext cursor = .ok (b, cursor')) :
    loadSignatureTokenLoop (top :: rest) cursor = loadSignatureTokenLoop (b :: top :: rest) cursor' := by
  rw [loop_waiting htop h, hread]

/-- A waiting builder fails the loop when the next node cannot be read. -/
theorem loop_read_error {top : TypeBuilder} {rest : List TypeBuilder} (htop : top.isSaturated = false)
    (h : rest.length + 1 ≤ SIGNATURE_TOKEN_DEPTH_MAX) {e : PartialVMError}
    (hread : readNext cursor = .error e) : loadSignatureTokenLoop (top :: rest) cursor = .err e := by
  rw [loop_waiting htop h, hread]

/-- A node the loop reads fails it when its builder does not fit on the stack. -/
theorem loop_read_of_lt {top : TypeBuilder} {rest : List TypeBuilder} (htop : top.isSaturated = false)
    (h : rest.length + 1 ≤ SIGNATURE_TOKEN_DEPTH_MAX) {b : TypeBuilder} {cursor' : List UInt8}
    (hread : readNext cursor = .ok (b, cursor'))
    (hlt : SIGNATURE_TOKEN_DEPTH_MAX < rest.length + 2) :
    loadSignatureTokenLoop (top :: rest) cursor = .err (malformed "Maximum recursion depth reached") := by
  rw [loop_read htop h hread, loop_of_lt (by simp only [List.length_cons]; omega)]

/-- The builder of a node that has inner tokens waits for them. -/
theorem isSaturated_builderOf {t : SignatureToken} (h : t.children ≠ []) :
    (builderOf t).isSaturated = false := by
  cases t <;> simp_all [builderOf, SignatureToken.children, TypeBuilder.isSaturated]

/-- The loop returns what is left of its cursor. -/
theorem length_le_of_loop {t : SignatureToken} {rest : List UInt8}
    (h : loadSignatureTokenLoop stack cursor = .ok (t, rest)) : rest.length ≤ cursor.length := by
  -- on the loop's own recursion: a step that reads a node shortens the cursor
  induction stack, cursor using loadSignatureTokenLoop.induct with
  | case1 stack cursor hlt =>
    rw [loop_of_lt hlt] at h
    cases h
  | case2 cursor hle =>
    rw [loadSignatureTokenLoop.eq_def, if_neg hle] at h
    cases h
  | case3 cursor tok hle =>
    rw [loop_saturated_nil] at h
    cases h
    exact Nat.le_refl _
  | case4 cursor tok u rest hle ih =>
    rw [loop_saturated_cons (by simp only [List.length_cons] at hle; omega)] at h
    cases happ : u.apply tok with
    | none =>
      rw [happ] at h
      cases h
    | some u' =>
      rw [happ] at h
      exact ih u' h
  | case5 cursor top rest htop e hread hle =>
    rw [loop_read_error (TypeBuilder.isSaturated_eq_false htop)
      (by simp only [List.length_cons] at hle; omega) hread] at h
    cases h
  | case6 cursor top rest htop b cursor' hread hle ih =>
    rw [loop_read (TypeBuilder.isSaturated_eq_false htop)
      (by simp only [List.length_cons] at hle; omega) hread] at h
    exact (ih h).trans (length_lt_of_readNext hread).le

end Loop

/-- A token takes at least its tag byte. -/
theorem length_lt_of_loadSignatureToken {cursor rest : List UInt8} {t : SignatureToken}
    (h : loadSignatureToken cursor = .ok (t, rest)) : rest.length < cursor.length := by
  unfold loadSignatureToken at h
  split at h
  · cases h
  · rename_i tok c hread
    cases h
    exact length_lt_of_readNext hread
  · rename_i b c _ hread
    exact (length_le_of_loop h).trans_lt (length_lt_of_readNext hread)

theorem length_le_of_loadTokens :
    ∀ (len : ℕ) {cursor rest : List UInt8} {tokens : List SignatureToken},
      loadTokens len cursor = .ok (tokens, rest) → rest.length ≤ cursor.length
  | 0, _, _, _, h => by
    cases h
    exact Nat.le_refl _
  | len + 1, _, _, _, h => by
    simp only [loadTokens, Outcome.bind_eq_ok] at h
    obtain ⟨⟨tok, c₁⟩, h₁, ⟨tokens, c₂⟩, h₂, h⟩ := h
    cases h
    exact (length_le_of_loadTokens len h₂).trans (length_lt_of_loadSignatureToken h₁).le

/-- A signature takes at least the byte of its length. -/
theorem length_lt_of_loadSignatureTokens {cursor rest : List UInt8} {tokens : List SignatureToken}
    (h : loadSignatureTokens cursor = .ok (tokens, rest)) : rest.length < cursor.length := by
  simp only [loadSignatureTokens, Outcome.bind_eq_ok, Outcome.ofExcept_eq_ok] at h
  obtain ⟨⟨len, c₁⟩, h₁, h₂⟩ := h
  exact (length_le_of_loadTokens len h₂).trans_lt (length_lt_of_readUlebInternal h₁)

/-! ### Reading whole tokens -/

/-- The instantiation's builder after one more type argument, when more are still to come. -/
theorem apply_structInst_of_lt {idx k : ℕ} {acc : List SignatureToken} {tok : SignatureToken}
    (h : acc.length + 1 < k) :
    (TypeBuilder.structInst idx k acc).apply tok = some (.structInst idx k (acc ++ [tok])) := by
  simp only [TypeBuilder.apply, List.length_append, List.length_singleton]
  rw [if_neg (by omega)]

/-- The instantiation's builder after its last type argument. -/
theorem apply_structInst_of_le {idx k : ℕ} {acc : List SignatureToken} {tok : SignatureToken}
    (h : k ≤ acc.length + 1) :
    (TypeBuilder.structInst idx k acc).apply tok =
      some (.saturated (.structInstantiation idx (acc ++ [tok]))) := by
  simp only [TypeBuilder.apply, List.length_append, List.length_singleton]
  rw [if_pos (by omega)]

/-- What the loader needs of every node of a token. -/
def SignatureToken.Loadable (t : SignatureToken) : Prop :=
  ∀ n ∈ t.preorderTraversal, n.NodeEncodable ∧ n.NodeHasTypeArguments

theorem SignatureToken.Loadable.of_child {t c : SignatureToken} (ht : t.Loadable) (hc : c ∈ t.children) :
    c.Loadable :=
  (Iff.mp forall_preorderTraversal_iff ht).2 c hc

theorem SignatureToken.Loadable.node {t : SignatureToken} (ht : t.Loadable) :
    t.NodeEncodable ∧ t.NodeHasTypeArguments :=
  (Iff.mp forall_preorderTraversal_iff ht).1

instance : DecidablePred SignatureToken.Loadable := fun t =>
  inferInstanceAs (Decidable (∀ n ∈ t.preorderTraversal, n.NodeEncodable ∧ n.NodeHasTypeArguments))

theorem SignatureToken.Loadable.encodable {t : SignatureToken} (ht : t.Loadable) : t.Encodable :=
  fun n hn => (ht n hn).1

theorem depth_le_of_child {t c : SignatureToken} (hc : c ∈ t.children) : c.depth + 1 ≤ t.depth := by
  have hne : t.children ≠ [] := List.ne_nil_of_mem hc
  rw [depth_eq_of_children t hne]
  have := Iff.mp depthList_le_iff (le_refl (depthList t.children)) c hc
  omega

/-- A node with one inner token: the loop reads the inner token, then finishes the node. -/
theorem loop_encode_of_single {t ty : SignatureToken} {S : List TypeBuilder} {r : List UInt8}
    (hchildren : t.children = [ty]) (happly : (builderOf t).apply ty = some (.saturated t))
    (hsat : (builderOf t).isSaturated = false) (hty : ty.NodeEncodable)
    (hd : S.length + 2 ≤ SIGNATURE_TOKEN_DEPTH_MAX)
    (hinner : loadSignatureTokenLoop (builderOf ty :: builderOf t :: S) (encodeList ty.children ++ r) =
      loadSignatureTokenLoop (.saturated ty :: builderOf t :: S) r) :
    loadSignatureTokenLoop (builderOf t :: S) (encodeList t.children ++ r) =
      loadSignatureTokenLoop (.saturated t :: S) r := by
  have hbytes : encodeList t.children ++ r = ty.nodeBytes ++ (encodeList ty.children ++ r) := by
    rw [hchildren, encodeList, encodeList, encode_eq_nodeBytes_append]
    simp
  rw [hbytes, loop_read hsat (by omega) (readNext_nodeBytes hty _), hinner, loop_saturated_cons hd,
    happly]
  rfl

/-- A node with one inner token fails the loop when the inner token is too deep for it. -/
theorem loop_encode_error_of_single {t ty : SignatureToken} {S : List TypeBuilder} {r : List UInt8}
    (hchildren : t.children = [ty]) (hsat : (builderOf t).isSaturated = false)
    (hty : ty.NodeEncodable)
    (hinner : S.length + 1 ≤ SIGNATURE_TOKEN_DEPTH_MAX → ∃ e,
      loadSignatureTokenLoop (builderOf ty :: builderOf t :: S) (encodeList ty.children ++ r) = .err e) :
    ∃ e, loadSignatureTokenLoop (builderOf t :: S) (encodeList t.children ++ r) = .err e := by
  by_cases h1 : S.length + 1 ≤ SIGNATURE_TOKEN_DEPTH_MAX
  · have hbytes : encodeList t.children ++ r = ty.nodeBytes ++ (encodeList ty.children ++ r) := by
      rw [hchildren, encodeList, encodeList, encode_eq_nodeBytes_append]
      simp
    rw [hbytes, loop_read hsat h1 (readNext_nodeBytes hty _)]
    exact hinner h1
  · -- the node's own builder is already too high
    exact ⟨_, loop_of_lt (by simp only [List.length_cons]; omega)⟩

mutual
/-- **Reading a token.** From the builder of a token's node, with the token's inner bytes
next, the loop ends with the token finished on top of the same stack, if the stack with the
token's nodes on it stays within `SIGNATURE_TOKEN_DEPTH_MAX`. -/
theorem loop_encode : (t : SignatureToken) → t.Loadable → ∀ (S : List TypeBuilder) (r : List UInt8),
    S.length + t.depth ≤ SIGNATURE_TOKEN_DEPTH_MAX →
      loadSignatureTokenLoop (builderOf t :: S) (encodeList t.children ++ r) =
        loadSignatureTokenLoop (.saturated t :: S) r
  | .vector ty, ht, S, r, hd | .reference ty, ht, S, r, hd | .mutableReference ty, ht, S, r, hd => by
    have hty := ht.of_child (List.mem_singleton_self ty)
    have hone := one_le_depth ty
    simp only [depth] at hd
    exact loop_encode_of_single rfl rfl rfl hty.node.1 (by omega)
      (loop_encode ty hty _ r (by simp only [List.length_cons]; omega))
  | .structInstantiation idx tyArgs, ht, S, r, hd => by
    simp only [depth] at hd
    have hlist := loop_encodeList tyArgs idx tyArgs.length [] S r ht.node.2 (by simp)
      (fun c hc => ht.of_child hc) (by omega)
    rw [List.nil_append] at hlist
    exact hlist
  | .bool, _, _, _, _ | .u8, _, _, _, _ | .u64, _, _, _, _ | .u128, _, _, _, _
  | .address, _, _, _, _ | .signer, _, _, _, _ | .struct _, _, _, _, _
  | .typeParameter _, _, _, _, _ => rfl

/-- **Reading type arguments.** An instantiation's builder that still waits for the tokens
`ts` reads them one after the other, and ends finished. -/
theorem loop_encodeList : (ts : List SignatureToken) → ∀ (idx k : ℕ) (acc : List SignatureToken)
    (S : List TypeBuilder) (r : List UInt8), ts ≠ [] → acc.length + ts.length = k →
    (∀ c ∈ ts, c.Loadable) → S.length + 1 + depthList ts ≤ SIGNATURE_TOKEN_DEPTH_MAX →
      loadSignatureTokenLoop (.structInst idx k acc :: S) (encodeList ts ++ r) =
        loadSignatureTokenLoop (.saturated (.structInstantiation idx (acc ++ ts)) :: S) r
  | [], _, _, _, _, _, hne, _, _, _ => absurd rfl hne
  | t :: ts, idx, k, acc, S, r, _, hk, hargs, hd => by
    have ht := hargs t List.mem_cons_self
    have hdt : t.depth ≤ depthList (t :: ts) := le_max_left _ _
    have hone := one_le_depth t
    rw [encodeList, encode_eq_nodeBytes_append, List.append_assoc, List.append_assoc,
      loop_read rfl (by omega) (readNext_nodeBytes ht.node.1 _),
      loop_encode t ht (.structInst idx k acc :: S) (encodeList ts ++ r)
        (by simp only [List.length_cons]; omega),
      loop_saturated_cons (by omega)]
    -- the last type argument finishes the instantiation; before it, the builder waits
    cases ts with
    | nil =>
      simp only [List.length_cons, List.length_nil] at hk
      rw [apply_structInst_of_le (by omega)]
      rfl
    | cons t' ts' =>
      simp only [List.length_cons] at hk
      rw [apply_structInst_of_lt (by omega)]
      have hrest := loop_encodeList (t' :: ts') idx k (acc ++ [t]) S r (List.cons_ne_nil _ _)
        (by simp only [List.length_append, List.length_cons, List.length_nil]; omega)
        (fun c hc => hargs c (List.mem_cons_of_mem t hc))
        (by have : depthList (t' :: ts') ≤ depthList (t :: t' :: ts') := le_max_right _ _; omega)
      rw [List.append_assoc, List.singleton_append] at hrest
      exact hrest
end

mutual
/-- **Too deep a token fails the loop.** From the builder of a token's node, when the stack
with the token's nodes on it would grow past `SIGNATURE_TOKEN_DEPTH_MAX`, the loop fails. -/
theorem loop_encode_error : (t : SignatureToken) → t.Loadable → ∀ (S : List TypeBuilder)
    (r : List UInt8), SIGNATURE_TOKEN_DEPTH_MAX < S.length + t.depth →
      ∃ e, loadSignatureTokenLoop (builderOf t :: S) (encodeList t.children ++ r) = .err e
  | .vector ty, ht, S, r, hd | .reference ty, ht, S, r, hd | .mutableReference ty, ht, S, r, hd => by
    have hty := ht.of_child (List.mem_singleton_self ty)
    simp only [depth] at hd
    exact loop_encode_error_of_single rfl rfl hty.node.1 fun _ =>
      loop_encode_error ty hty _ r (by simp only [List.length_cons]; omega)
  | .structInstantiation idx tyArgs, ht, S, r, hd => by
    simp only [depth] at hd
    by_cases h1 : S.length + 1 ≤ SIGNATURE_TOKEN_DEPTH_MAX
    · -- some type argument is too deep
      have hdeep : ∃ c ∈ tyArgs, SIGNATURE_TOKEN_DEPTH_MAX < S.length + 1 + c.depth := by
        by_contra hall
        simp only [not_exists, not_and, not_lt] at hall
        have := Iff.mpr depthList_le_iff fun c hc =>
          (show c.depth ≤ SIGNATURE_TOKEN_DEPTH_MAX - (S.length + 1) by have := hall c hc; omega)
        omega
      exact loop_encodeList_error tyArgs idx tyArgs.length [] S r (by simp)
        (fun c hc => ht.of_child hc) h1 hdeep
    · exact ⟨_, loop_of_lt (by simp only [List.length_cons]; omega)⟩
  | .bool, _, S, _, hd | .u8, _, S, _, hd | .u64, _, S, _, hd | .u128, _, S, _, hd
  | .address, _, S, _, hd | .signer, _, S, _, hd | .struct _, _, S, _, hd
  | .typeParameter _, _, S, _, hd => by
    -- a node without inner tokens is finished at once, on a stack already too high
    simp only [depth] at hd
    exact ⟨_, loop_of_lt (by simp only [List.length_cons]; omega)⟩

/-- An instantiation's builder that still waits for the tokens `ts`, one of them too deep,
fails the loop. -/
theorem loop_encodeList_error : (ts : List SignatureToken) → ∀ (idx k : ℕ)
    (acc : List SignatureToken) (S : List TypeBuilder) (r : List UInt8),
    acc.length + ts.length = k → (∀ c ∈ ts, c.Loadable) → S.length + 1 ≤ SIGNATURE_TOKEN_DEPTH_MAX →
    (∃ c ∈ ts, SIGNATURE_TOKEN_DEPTH_MAX < S.length + 1 + c.depth) →
      ∃ e, loadSignatureTokenLoop (.structInst idx k acc :: S) (encodeList ts ++ r) = .err e
  | [], _, _, _, _, _, _, _, _, ⟨_, hc, _⟩ => absurd hc List.not_mem_nil
  | t :: ts, idx, k, acc, S, r, hk, hargs, h1, ⟨c, hc, hcd⟩ => by
    have ht := hargs t List.mem_cons_self
    rw [encodeList, encode_eq_nodeBytes_append, List.append_assoc, List.append_assoc,
      loop_read rfl h1 (readNext_nodeBytes ht.node.1 _)]
    by_cases htd : SIGNATURE_TOKEN_DEPTH_MAX < S.length + 1 + t.depth
    · -- this type argument is too deep
      exact loop_encode_error t ht (.structInst idx k acc :: S) _
        (by simp only [List.length_cons]; omega)
    · -- it is read, and a later one is too deep
      have hc' : c ∈ ts := (List.mem_cons.mp hc).resolve_left fun h => htd (h ▸ hcd)
      have hlen := List.length_pos_of_mem hc'
      have hone := one_le_depth t
      simp only [List.length_cons] at hk
      rw [loop_encode t ht _ _ (by simp only [List.length_cons]; omega),
        loop_saturated_cons (by omega), apply_structInst_of_lt (by omega)]
      exact loop_encodeList_error ts idx k (acc ++ [t]) S r
        (by simp only [List.length_append, List.length_singleton]; omega)
        (fun c hc => hargs c (List.mem_cons_of_mem t hc)) h1 ⟨c, hc', hcd⟩
end

/-! ### The loader -/

theorem loadSignatureToken_of_saturated {cursor rest : List UInt8} {tok : SignatureToken}
    (hread : readNext cursor = .ok (.saturated tok, rest)) :
    loadSignatureToken cursor = .ok (tok, rest) := by
  rw [loadSignatureToken, hread]

theorem loadSignatureToken_of_waiting {cursor rest : List UInt8} {b : TypeBuilder}
    (hread : readNext cursor = .ok (b, rest)) (hb : b.isSaturated = false) :
    loadSignatureToken cursor = loadSignatureTokenLoop [b] rest := by
  rw [loadSignatureToken, hread]
  cases b with
  | saturated _ => cases hb
  | vector | reference | mutableReference | structInst _ _ _ => rfl

/-- **The loader reads back the tokens it can**: a token whose nodes the serializer can write
and whose instantiations have type arguments is read back from its encoding when its depth
is at most `SIGNATURE_TOKEN_DEPTH_MAX`, and refused otherwise. -/
theorem loadSignatureToken_encode {t : SignatureToken} (ht : t.Loadable) (r : List UInt8) :
    (t.depth ≤ SIGNATURE_TOKEN_DEPTH_MAX → loadSignatureToken (t.encode ++ r) = .ok (t, r)) ∧
    (SIGNATURE_TOKEN_DEPTH_MAX < t.depth → ∃ e, loadSignatureToken (t.encode ++ r) = .err e) := by
  have hread := readNext_nodeBytes ht.node.1 (encodeList t.children ++ r)
  rw [← List.append_assoc, ← encode_eq_nodeBytes_append] at hread
  by_cases hleaf : t.children = []
  · -- a node without inner tokens is returned as read
    have hd := depth_of_children_eq_nil hleaf ht.node.2
    rw [builderOf_of_children_eq_nil hleaf ht.node.2, hleaf, encodeList, List.nil_append] at hread
    refine ⟨fun _ => loadSignatureToken_of_saturated hread, fun h => ?_⟩
    rw [hd] at h
    exact absurd h (by decide)
  · rw [loadSignatureToken_of_waiting hread (isSaturated_builderOf hleaf)]
    refine ⟨fun hd => ?_, fun hd => loop_encode_error t ht [] r (by simpa using hd)⟩
    rw [loop_encode t ht [] r (by simpa using hd), loop_saturated_nil]

/-! ### Instantiations without type arguments -/

/-- **An instantiation without type arguments takes the next token.** Its builder is saturated
only once a type argument is given to it, so the loop reads the token after it as one. -/
theorem loop_zeroArity {idx : ℕ} {u : SignatureToken} (hu : u.Loadable) {S : List TypeBuilder}
    {r : List UInt8} (hd : S.length + 1 + u.depth ≤ SIGNATURE_TOKEN_DEPTH_MAX) :
    loadSignatureTokenLoop (.structInst idx 0 [] :: S) (u.encode ++ r) =
      loadSignatureTokenLoop (.saturated (.structInstantiation idx [u]) :: S) r := by
  have hone := one_le_depth u
  rw [encode_eq_nodeBytes_append, List.append_assoc,
    loop_read rfl (by omega) (readNext_nodeBytes hu.node.1 _),
    loop_encode u hu _ r (by simp only [List.length_cons]; omega), loop_saturated_cons (by omega),
    apply_structInst_of_le (by omega)]
  rfl

/-- The loader reads an instantiation written without type arguments together with the token
after it, which becomes its one type argument. -/
theorem loadSignatureToken_zeroArity {idx : ℕ} (hidx : idx ≤ STRUCT_HANDLE_INDEX_MAX)
    {u : SignatureToken} (hu : u.Loadable) (hd : u.depth + 1 ≤ SIGNATURE_TOKEN_DEPTH_MAX)
    (r : List UInt8) :
    loadSignatureToken ((SignatureToken.structInstantiation idx []).encode ++ u.encode ++ r) =
      .ok (.structInstantiation idx [u], r) := by
  have hnode : (SignatureToken.structInstantiation idx []).NodeEncodable :=
    ⟨hidx, Nat.zero_le _⟩
  have hread := readNext_nodeBytes hnode (u.encode ++ r)
  rw [show builderOf (.structInstantiation idx []) = .structInst idx 0 [] from rfl] at hread
  rw [encode_eq_nodeBytes_append, show (SignatureToken.structInstantiation idx []).children = [] from rfl,
    encodeList, List.append_nil, List.append_assoc, loadSignatureToken_of_waiting hread rfl,
    loop_zeroArity hu (by simp only [List.length_nil]; omega), loop_saturated_nil]

/-! ## The serializer and the loader agree -/

/-- **Serializer and loader agree on depth.** For a token whose nodes the format can write
and has type arguments, the checked writer succeeds exactly when the token is at most
`SIGNATURE_TOKEN_DEPTH_MAX` deep; and the loader, given the unchecked writer's bytes and any
bytes after them, succeeds exactly then, with the token and the bytes after it. -/
theorem signature_token_depth_agrees :
    (∀ (binary : List UInt8) (t : SignatureToken), t.Loadable →
      binary.length + t.encode.length < 2 ^ 64 →
        ((∃ bytes, serializeSignatureToken binary t = .ok bytes) ↔
          t.depth ≤ SIGNATURE_TOKEN_DEPTH_MAX)) ∧
    (∀ (t : SignatureToken) (rest : List UInt8), t.Loadable → t.encode.length < 2 ^ 64 →
      ∃ bytes, serializeSignatureTokenUnchecked [] t = .ok bytes ∧
        ((∃ tok r, loadSignatureToken (bytes ++ rest) = .ok (tok, r)) ↔
          t.depth ≤ SIGNATURE_TOKEN_DEPTH_MAX) ∧
        (t.depth ≤ SIGNATURE_TOKEN_DEPTH_MAX → loadSignatureToken (bytes ++ rest) = .ok (t, rest))) := by
  constructor
  · intro binary t ht hfit
    rw [serializeSignatureToken_eq ht.encodable hfit]
    by_cases hd : t.depth ≤ SIGNATURE_TOKEN_DEPTH_MAX
    · rw [if_pos hd]
      exact ⟨fun _ => hd, fun _ => ⟨_, rfl⟩⟩
    · rw [if_neg hd]
      constructor
      · rintro ⟨_, h⟩
        cases h
      · intro h
        exact absurd h hd
  · intro t rest ht hfit
    have hload := loadSignatureToken_encode ht rest
    have hbytes : serializeSignatureTokenUnchecked [] t = .ok t.encode := by
      rw [serializeSignatureTokenUnchecked_eq ht.encodable (by rw [List.length_nil, Nat.zero_add]; exact hfit),
        List.nil_append]
    refine ⟨t.encode, hbytes, ⟨?_, fun hd => ⟨t, rest, hload.1 hd⟩⟩, hload.1⟩
    rintro ⟨tok, r, h⟩
    -- a token too deep is refused
    by_contra hd
    obtain ⟨e, he⟩ := hload.2 (Nat.lt_of_not_le hd)
    rw [he] at h
    cases h

theorem signature_token_depth_agrees_vector :
    ((∃ bytes, serializeSignatureToken [] (.vector .u8) = .ok bytes) ↔
        (SignatureToken.vector .u8).depth ≤ SIGNATURE_TOKEN_DEPTH_MAX) ∧
      ∃ bytes, serializeSignatureTokenUnchecked [] (.vector .u8) = .ok bytes ∧
        ((∃ tok r, loadSignatureToken (bytes ++ []) = .ok (tok, r)) ↔
          (SignatureToken.vector .u8).depth ≤ SIGNATURE_TOKEN_DEPTH_MAX) ∧
        ((SignatureToken.vector .u8).depth ≤ SIGNATURE_TOKEN_DEPTH_MAX →
          loadSignatureToken (bytes ++ []) = .ok (.vector .u8, [])) :=
  ⟨signature_token_depth_agrees.1 [] (.vector .u8) (by decide) (by decide),
    signature_token_depth_agrees.2 (.vector .u8) [] (by decide) (by decide)⟩

/-- An instantiation with more type arguments than `SIGNATURE_SIZE_MAX` is refused by the
checked writer although it is shallow. -/
theorem serialize_wide_instantiation_fails :
    (SignatureToken.structInstantiation 0 (List.replicate 256 .bool)).HasTypeArguments ∧
      (SignatureToken.structInstantiation 0 (List.replicate 256 .bool)).depth ≤ SIGNATURE_TOKEN_DEPTH_MAX ∧
      serializeSignatureToken [] (.structInstantiation 0 (List.replicate 256 .bool)) =
        .error "value (256) cannot exceed (255)" := by
  have hbool : ∀ c ∈ List.replicate 256 SignatureToken.bool, c = .bool := fun c hc =>
    List.eq_of_mem_replicate hc
  refine ⟨?_, ?_, ?_⟩
  · -- the only instantiation has its 256 type arguments
    refine Iff.mpr forall_preorderTraversal_iff
      ⟨(List.replicate_succ_ne_nil : List.replicate 256 SignatureToken.bool ≠ []), fun c hc n hn => ?_⟩
    rw [hbool c hc] at hn
    rw [List.mem_singleton.mp hn]
    trivial
  · have hargs : depthList (List.replicate 256 SignatureToken.bool) ≤ 1 :=
      Iff.mpr depthList_le_iff fun c hc => by rw [hbool c hc]; rfl
    simp only [depth, SIGNATURE_TOKEN_DEPTH_MAX]
    omega
  · rw [serializeSignatureToken, preorderTraversalWithDepth, preorderWithDepthFrom, List.foldlM_cons,
      serializeNodeWithDepth, if_neg (by decide), serializeSignatureTokenSingleNodeImpl,
      push_eq_ok (by decide), Check.ok_bind, serializeStructHandleIndex,
      writeAsUleb128_eq (by decide) (by decide) (by rw [Uleb128.encode_of_lt (by decide)]; decide),
      Check.ok_bind, serializeSignatureSize, List.length_replicate, writeAsUleb128, if_pos (by decide)]
    rfl

end Dijets.Move
