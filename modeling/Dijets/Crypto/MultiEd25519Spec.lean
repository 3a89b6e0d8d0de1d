import Dijets.Crypto.MultiEd25519

/-!
# What verification of a multi-signature checks

The abstract reading of a `MultiEd25519Signature`: its `j`-th signature goes with
the `j`-th marked position of its bitmap (`signers`), and it is a valid threshold
signature of a message under a public key (`Accepts`) when at least `threshold`
positions are marked, every marked position names a key, and each signature
verifies under the key of its position.

Every constructor of the crate yields keys and signatures of the shape this
reading needs (`WellFormed`): keys with a threshold between one and the number of
keys, at most `MAX_NUM_OF_KEYS` of them, and signatures with one signature per
marked position. `MultiEd25519Signature::new` moreover pairs each signature with
the index it was given (`new_signers`), and `MultiEd25519PrivateKey::sign` marks
the first `threshold` positions (`sign_eq`).

The walk of `verify_arbitrary_msg` over the bitmap is `checkSigners` over
`signers` (`verifySignatures_eq`), which gives the three outcomes of verification
exactly: `Ok` is `Accepts` (`verifyArbitraryMsg_eq_ok_iff`), and a panic is a walk
that reaches a marked position past the last key (`verifyArbitraryMsg_eq_panic_iff`),
which the range check lets through (`verifyArbitraryMsg_eq_of_ne_nil`).
-/

set_option autoImplicit false

namespace Dijets.Crypto

open Dijets.Lib Dijets.Lib.Outcome

variable {PK SK Sig : Type}

/-! ## Well-formed keys -/

/-- The shape `new` and `TryFrom` check for both kinds of key. -/
structure KeysWellFormed (numOfKeys : ℕ) (threshold : UInt8) : Prop where
  threshold_pos : 0 < threshold.toNat
  threshold_le : threshold.toNat ≤ numOfKeys
  le_maxNumOfKeys : numOfKeys ≤ maxNumOfKeys

/-- A private key of the shape every constructor gives. -/
def MultiEd25519PrivateKey.WellFormed (sk : MultiEd25519PrivateKey SK) : Prop :=
  KeysWellFormed sk.privateKeys.length sk.threshold

/-- A public key of the shape every constructor gives. -/
def MultiEd25519PublicKey.WellFormed (pk : MultiEd25519PublicKey PK) : Prop :=
  KeysWellFormed pk.publicKeys.length pk.threshold

theorem toNat_pos_of_ne_zero {t : UInt8} (h : t ≠ 0) : 0 < t.toNat := by
  rcases Nat.eq_zero_or_pos t.toNat with h0 | h0
  · exact absurd (UInt8.toNat_inj.mp (h0.trans UInt8.toNat_zero.symm)) h
  · exact h0

theorem newKeys_eq_ok {K : Type} {keys : List K} {threshold : UInt8} {r : List K × UInt8}
    (h : newKeys keys threshold = .ok r) : r = (keys, threshold) ∧ KeysWellFormed keys.length threshold := by
  unfold newKeys at h
  dsimp only at h
  split at h
  · cases h
  · split at h
    · cases h
    · rename_i h₁ h₂
      cases h
      refine ⟨rfl, toNat_pos_of_ne_zero fun h => h₁ (.inl h), by omega, by omega⟩

theorem checkAndGetThreshold_eq_ok {bytes : List UInt8} {keySize : ℕ} {t : UInt8}
    (h : checkAndGetThreshold bytes keySize = .ok t) :
    KeysWellFormed (bytes.length / keySize) t := by
  unfold checkAndGetThreshold at h
  split at h
  · cases h
  · dsimp only at h
    split at h
    · cases h
    · split at h
      · cases h
      · rename_i hlen hval
        cases h
        have hle : bytes.length / keySize ≤ maxNumOfKeys := by omega
        -- `num_of_keys as u8` is exact, since there are at most 32 keys
        have hcast : (bytes.length / keySize).toUInt8.toNat = bytes.length / keySize := by
          simp only [maxNumOfKeys] at hle
          simp [Nat.toUInt8]
          omega
        have hgt : ¬ (bytes.length / keySize).toUInt8 < t := fun h' => hval (.inr h')
        rw [UInt8.lt_iff_toNat_lt, hcast] at hgt
        exact ⟨toNat_pos_of_ne_zero fun h' => hval (.inl h'), by omega, hle⟩

theorem length_chunksExact (size : ℕ) (bytes : List UInt8) :
    (chunksExact size bytes).length = bytes.length / size := by
  simp [chunksExact]

theorem length_of_mapM_eq_ok {α β ε : Type} {f : α → Except ε β} :
    ∀ {l : List α} {l' : List β}, l.mapM f = .ok l' → l'.length = l.length
  | [], l', h => by
    simp only [List.mapM_nil] at h
    cases h
    rfl
  | a :: l, l', h => by
    simp only [List.mapM_cons] at h
    cases hfa : f a with
    | error e => rw [hfa] at h; cases h
    | ok b =>
      cases hl : l.mapM f with
      | error e => rw [hfa, hl] at h; cases h
      | ok bs =>
        simp only [hfa, hl] at h
        cases h
        simp [length_of_mapM_eq_ok hl]

theorem keysTryFrom_eq_ok {K : Type} {keySize : ℕ} {keyTryFrom : List UInt8 → Except CryptoMaterialError K}
    {bytes : List UInt8} {r : List K × UInt8} (h : keysTryFrom keySize keyTryFrom bytes = .ok r) :
    KeysWellFormed r.1.length r.2 := by
  unfold keysTryFrom at h
  split at h
  · cases h
  · cases ht : checkAndGetThreshold bytes keySize with
    | error e => rw [ht] at h; cases h
    | ok t =>
      cases hk : (chunksExact keySize bytes).mapM keyTryFrom with
      | error e => rw [ht, hk] at h; cases h
      | ok keys =>
        simp only [ht, hk] at h
        cases h
        rw [length_of_mapM_eq_ok hk, length_chunksExact]
        exact checkAndGetThreshold_eq_ok ht

theorem except_map_eq_ok {ε α β : Type} {f : α → β} {x : Except ε α} {b : β} :
    x.map f = .ok b ↔ ∃ a, x = .ok a ∧ f a = b := by
  cases x <;> simp [Except.map]

theorem MultiEd25519PrivateKey.new_wellFormed {privateKeys : List SK} {threshold : UInt8}
    {sk : MultiEd25519PrivateKey SK} (h : MultiEd25519PrivateKey.new privateKeys threshold = .ok sk) :
    sk.WellFormed := by
  obtain ⟨r, hr, rfl⟩ := Iff.mp except_map_eq_ok h
  obtain ⟨rfl, hwf⟩ := newKeys_eq_ok hr
  exact hwf

theorem MultiEd25519PublicKey.new_wellFormed {publicKeys : List PK} {threshold : UInt8}
    {pk : MultiEd25519PublicKey PK} (h : MultiEd25519PublicKey.new publicKeys threshold = .ok pk) :
    pk.WellFormed := by
  obtain ⟨r, hr, rfl⟩ := Iff.mp except_map_eq_ok h
  obtain ⟨rfl, hwf⟩ := newKeys_eq_ok hr
  exact hwf

theorem MultiEd25519PrivateKey.tryFrom_wellFormed {ed : Ed25519 PK SK Sig} {bytes : List UInt8}
    {sk : MultiEd25519PrivateKey SK} (h : MultiEd25519PrivateKey.tryFrom ed bytes = .ok sk) :
    sk.WellFormed := by
  obtain ⟨r, hr, rfl⟩ := Iff.mp except_map_eq_ok h
  exact keysTryFrom_eq_ok hr

theorem MultiEd25519PublicKey.tryFrom_wellFormed {ed : Ed25519 PK SK Sig} {bytes : List UInt8}
    {pk : MultiEd25519PublicKey PK} (h : MultiEd25519PublicKey.tryFrom ed bytes = .ok pk) :
    pk.WellFormed := by
  obtain ⟨r, hr, rfl⟩ := Iff.mp except_map_eq_ok h
  exact keysTryFrom_eq_ok hr

theorem MultiEd25519PrivateKey.ofEd25519_wellFormed (privateKey : SK) :
    (MultiEd25519PrivateKey.ofEd25519 privateKey).WellFormed := by
  show KeysWellFormed 1 1
  exact ⟨by decide, by decide, by decide⟩

theorem MultiEd25519PublicKey.ofEd25519_wellFormed (publicKey : PK) :
    (MultiEd25519PublicKey.ofEd25519 publicKey).WellFormed := by
  show KeysWellFormed 1 1
  exact ⟨by decide, by decide, by decide⟩

theorem MultiEd25519PublicKey.WellFormed.publicKeys_ne_nil {pk : MultiEd25519PublicKey PK}
    (hpk : pk.WellFormed) : pk.publicKeys ≠ [] := by
  intro hnil
  have hle := hpk.threshold_le
  rw [hnil, List.length_nil] at hle
  have := hpk.threshold_pos
  omega

theorem MultiEd25519PublicKey.ofPrivateKey_wellFormed (ed : Ed25519 PK SK Sig)
    {sk : MultiEd25519PrivateKey SK} (hsk : sk.WellFormed) :
    (MultiEd25519PublicKey.ofPrivateKey ed sk).WellFormed := by
  unfold MultiEd25519PublicKey.WellFormed MultiEd25519PublicKey.ofPrivateKey
  rw [List.length_map]
  exact hsk


/-! ## Well-formed signatures -/

namespace MultiEd25519Signature

/-- One signature per marked position: the shape every constructor gives. -/
def WellFormed (s : MultiEd25519Signature Sig) : Prop := s.signatures.length = (setBits s.bitmap).length

/-- The `j`-th signature with the `j`-th marked position. -/
def signers (s : MultiEd25519Signature Sig) : List (Sig × ℕ) := s.signatures.zip (setBits s.bitmap)

theorem signers_eq (s : MultiEd25519Signature Sig) : s.signers = s.signatures.zip (setBits s.bitmap) :=
  rfl

end MultiEd25519Signature

/-- The loop of `MultiEd25519Signature::new` succeeds on indexes that are in
range, distinct and not yet marked, and marks exactly them. -/
theorem setSignatureIndexes_eq_ok {b b' : Bitmap} {indexes : List UInt8}
    (h : setSignatureIndexes b indexes = .ok b') :
    (indexes.map UInt8.toNat).Nodup ∧ (∀ i ∈ indexes, i.toNat < maxNumOfKeys ∧ bit b i.toNat = false) ∧
      ∀ j, bit b' j = (bit b j || decide (j ∈ indexes.map UInt8.toNat)) := by
  induction indexes generalizing b with
  | nil =>
    cases h
    simp
  | cons i indexes ih =>
    simp only [setSignatureIndexes] at h
    split at h
    · rename_i hi
      have hi' : i.toNat < maxNumOfKeys := by
        rw [UInt8.lt_iff_toNat_lt] at hi
        simpa [maxNumOfKeys] using hi
      simp only [liftM_option, bitmapGetBit_eq, if_pos hi', ofOption_some, ok_bind] at h
      split at h
      · cases h
      · rename_i hfree
        obtain ⟨b₁, hb₁⟩ := bitmapSetBit_isSome (b := b) hi'
        simp only [hb₁, ofOption_some, ok_bind] at h
        obtain ⟨hnodup, hrest, hbit⟩ := ih h
        have hset := bit_of_bitmapSetBit hb₁
        -- the later indexes were unmarked after `i` was marked, so none is `i`
        have hnot : i.toNat ∉ indexes.map UInt8.toNat := by
          intro hmem
          obtain ⟨k, hk, hki⟩ := List.mem_map.mp hmem
          have := (hrest k hk).2
          rw [hset, hki] at this
          simp at this
        refine ⟨List.nodup_cons.mpr ⟨hnot, hnodup⟩, ?_, ?_⟩
        · intro k hk
          rcases List.mem_cons.mp hk with rfl | hk
          · exact ⟨hi', by simpa using hfree⟩
          · have := (hrest k hk).2
            rw [hset] at this
            exact ⟨(hrest k hk).1, (Bool.or_eq_false_iff.mp this).1⟩
        · intro j
          rw [hbit j, hset j]
          simp only [List.map_cons, List.mem_cons]
          cases bit b j <;> simp
    · cases h

/-- The loop of `MultiEd25519Signature::new` never panics: it reads and sets
only indexes it has checked to be in range. -/
theorem setSignatureIndexes_ne_panic (b : Bitmap) (indexes : List UInt8) :
    setSignatureIndexes b indexes ≠ .panic := by
  induction indexes generalizing b with
  | nil => simp [setSignatureIndexes]
  | cons i indexes ih =>
    simp only [setSignatureIndexes]
    split
    · rename_i hi
      have hi' : i.toNat < maxNumOfKeys := by
        rw [UInt8.lt_iff_toNat_lt] at hi
        simpa [maxNumOfKeys] using hi
      obtain ⟨b₁, hb₁⟩ := bitmapSetBit_isSome (b := b) hi'
      simp only [liftM_option, bitmapGetBit_eq, if_pos hi', ofOption_some, ok_bind, hb₁]
      split
      · simp
      · exact ih b₁
    · simp

/-- The indexes of a list of signatures, sorted as `new` sorts them. -/
theorem pairwise_sortedIndexes {signatures : List (Sig × UInt8)}
    (hnodup : ((signatures.mergeSort fun a b => a.2 ≤ b.2).map fun p => p.2.toNat).Nodup) :
    ((signatures.mergeSort fun a b => a.2 ≤ b.2).map fun p => p.2.toNat).Pairwise (· < ·) := by
  have hsorted : (signatures.mergeSort fun a b => a.2 ≤ b.2).Pairwise fun a b => decide (a.2 ≤ b.2) :=
    List.pairwise_mergeSort
      (fun a b c hab hbc => by simp only [decide_eq_true_eq] at *; exact UInt8.le_trans hab hbc)
      (fun a b => by simpa using UInt8.le_total a.2 b.2) signatures
  rw [List.pairwise_map]
  rw [List.nodup_iff_pairwise_ne, List.pairwise_map] at hnodup
  refine (hsorted.and hnodup).imp ?_
  rintro a b ⟨hab, hne⟩
  simp only [decide_eq_true_eq, UInt8.le_iff_toNat_le] at hab
  omega

namespace MultiEd25519Signature

/-- `new` sorts the signatures by index and pairs each with its own index: the
`j`-th signature goes with the `j`-th marked position, which is the index it was
given. -/
theorem new_signers {signatures : List (Sig × UInt8)} {s : MultiEd25519Signature Sig}
    (h : MultiEd25519Signature.new signatures = .ok s) :
    s.WellFormed ∧
      s.signers = (signatures.mergeSort fun a b => a.2 ≤ b.2).map fun p => (p.1, p.2.toNat) := by
  unfold MultiEd25519Signature.new at h
  dsimp only at h
  split at h
  · cases h
  · simp only [List.unzip_fst, List.unzip_snd] at h
    obtain ⟨b, hb, hs⟩ := Iff.mp bind_eq_ok h
    cases hs
    obtain ⟨hnodup, hlt, hbit⟩ := setSignatureIndexes_eq_ok hb
    rw [List.map_map] at hnodup
    -- the bitmap marks exactly the sorted indexes
    have hset : setBits b = (signatures.mergeSort fun a b => a.2 ≤ b.2).map fun p => p.2.toNat := by
      apply setBits_eq_of_bit_iff (pairwise_sortedIndexes hnodup)
      · intro i hi
        obtain ⟨p, hp, rfl⟩ := List.mem_map.mp hi
        exact (hlt p.2 (List.mem_map_of_mem hp)).1
      · intro i
        rw [hbit, bit_zeroBitmap, Bool.false_or, decide_eq_true_eq, List.map_map]
        rfl
    refine ⟨by simp [WellFormed, hset], ?_⟩
    simp only [signers_eq, hset]
    rw [List.zip_map']

theorem new_wellFormed {signatures : List (Sig × UInt8)} {s : MultiEd25519Signature Sig}
    (h : MultiEd25519Signature.new signatures = .ok s) : s.WellFormed :=
  (new_signers h).1

theorem new_ne_panic (signatures : List (Sig × UInt8)) :
    MultiEd25519Signature.new signatures ≠ .panic := by
  unfold MultiEd25519Signature.new
  dsimp only
  split
  · simp
  · intro h
    rcases Iff.mp bind_eq_panic h with h | ⟨_, _, h⟩
    · exact setSignatureIndexes_ne_panic _ _ h
    · cases h

theorem tryFrom_wellFormed {ed : Ed25519 PK SK Sig} {bytes : List UInt8} {s : MultiEd25519Signature Sig}
    (h : MultiEd25519Signature.tryFrom ed bytes = .ok s) : s.WellFormed := by
  unfold MultiEd25519Signature.tryFrom at h
  dsimp only at h
  split at h
  · cases h
  · cases hb : bitmapTryFrom (bytes.drop (bytes.length - bitmapNumOfBytes)) with
    | none => simp [hb] at h; cases h
    | some b =>
      simp only [hb, pure_bind] at h
      split at h
      · cases h
      · rename_i hcount
        cases hsigs : (chunksExact ed25519SignatureLength bytes).mapM ed.signatureTryFrom with
        | error e => simp [hsigs] at h
        | ok sigs =>
          simp only [hsigs] at h
          cases h
          rw [WellFormed, length_of_mapM_eq_ok hsigs, length_chunksExact, ← bitmapCountOnes_eq]
          exact (Decidable.not_not.mp hcount).symm

theorem ofEd25519_signers (signature : Sig) :
    (MultiEd25519Signature.ofEd25519 signature).signers = [(signature, 0)] := by
  have : setBits #v[0b1000_0000, 0, 0, 0] = [0] := by decide
  simp [signers_eq, MultiEd25519Signature.ofEd25519, this]

end MultiEd25519Signature


/-! ## Signing -/

/-- Marking the first `n` positions one after the other never panics for `n` in
range. -/
theorem foldlM_bitmapSetBit {n : ℕ} (hn : n ≤ maxNumOfKeys) (b : Bitmap) :
    ∃ b', (List.range n).foldlM bitmapSetBit b = some b' ∧ ∀ j, bit b' j = (bit b j || decide (j < n)) := by
  induction n with
  | zero => exact ⟨b, rfl, by simp⟩
  | succ n ih =>
    obtain ⟨b₁, h₁, hbit₁⟩ := ih (by omega)
    obtain ⟨b₂, h₂⟩ := bitmapSetBit_isSome (b := b₁) (i := n) (by omega)
    refine ⟨b₂, ?_, fun j => ?_⟩
    · rw [List.range_succ, List.foldlM_append, h₁]
      simp [h₂]
    · rw [bit_of_bitmapSetBit h₂, hbit₁, Bool.or_assoc]
      congr 1
      rw [Bool.eq_iff_iff]
      simp only [Bool.or_eq_true, decide_eq_true_eq]
      omega

namespace MultiEd25519PrivateKey

/-- `sign` signs with the first `threshold` keys and marks the first `threshold`
positions. -/
theorem sign_eq (ed : Ed25519 PK SK Sig) {sk : MultiEd25519PrivateKey SK} (hsk : sk.WellFormed)
    (message : List UInt8) :
    ∃ s, sk.sign ed message = some s ∧
      s.signatures = (sk.privateKeys.take sk.threshold.toNat).map (ed.signArbitraryMessage · message) ∧
      setBits s.bitmap = List.range sk.threshold.toNat := by
  have hlen : (sk.privateKeys.take sk.threshold.toNat).length = sk.threshold.toNat := by
    simp [hsk.threshold_le]
  obtain ⟨b, hb, hbit⟩ := foldlM_bitmapSetBit (hlen ▸ hsk.threshold_le.trans hsk.le_maxNumOfKeys) zeroBitmap
  rw [hlen] at hb hbit
  refine ⟨⟨_, b⟩, by simp [sign, hlen, hb], rfl, ?_⟩
  apply setBits_eq_of_bit_iff List.pairwise_lt_range
  · intro i hi
    have := List.mem_range.mp hi
    have := hsk.threshold_le.trans hsk.le_maxNumOfKeys
    omega
  · intro i
    rw [hbit, bit_zeroBitmap, Bool.false_or, decide_eq_true_eq, List.mem_range]

theorem sign_wellFormed (ed : Ed25519 PK SK Sig) {sk : MultiEd25519PrivateKey SK} (hsk : sk.WellFormed)
    (message : List UInt8) : ∃ s, sk.sign ed message = some s ∧ s.WellFormed := by
  obtain ⟨s, hs, hsigs, hset⟩ := sign_eq ed hsk message
  refine ⟨s, hs, ?_⟩
  simp [MultiEd25519Signature.WellFormed, hsigs, hset, hsk.threshold_le]

end MultiEd25519PrivateKey

/-! ## The walk over the bitmap -/

/-- The `while` loop finds the first marked position from `i` on, and what is
left of the walk after it starts past that position; it panics exactly when no
position is left. -/
theorem setBitsFrom_eq_nextSetBit (b : Bitmap) (i : ℕ) :
    setBitsFrom b i = match nextSetBit b i with
      | some j => j :: setBitsFrom b (j + 1)
      | none => [] := by
  fun_induction nextSetBit b i with
  | case1 i h =>
    rw [bitmapGetBit_eq] at h
    split at h
    · rename_i hi
      rw [setBitsFrom_of_lt b hi, if_pos (Option.some.inj h)]
    · cases h
  | case2 i h ih =>
    rw [bitmapGetBit_eq] at h
    split at h
    · rename_i hi
      rw [setBitsFrom_of_lt b hi, if_neg (by simp [Option.some.inj h]), ih]
    · cases h
  | case3 i h =>
    rw [bitmapGetBit_eq] at h
    split at h
    · cases h
    · exact setBitsFrom_of_le b (by omega)

/-- Verify each signer under the key at its position, in order: what the loop of
`verify_arbitrary_msg` does once the positions are known. A position without a
key is the panic of `public_keys[bitmap_index]`. -/
def checkSigners (ed : Ed25519 PK SK Sig) (message : List UInt8) (publicKeys : List PK) :
    List (Sig × ℕ) → Outcome String Unit
  | [] => pure ()
  | (sig, i) :: signers => do
    let publicKey ← publicKeys[i]?
    ed.verifyArbitraryMsg sig message publicKey
    checkSigners ed message publicKeys signers

section checkSigners

variable (ed : Ed25519 PK SK Sig) (message : List UInt8) (publicKeys : List PK)

theorem checkSigners_nil : checkSigners ed message publicKeys [] = pure () := rfl

theorem checkSigners_cons (sig : Sig) (i : ℕ) (signers : List (Sig × ℕ)) :
    checkSigners ed message publicKeys ((sig, i) :: signers) = (do
      let publicKey ← publicKeys[i]?
      ed.verifyArbitraryMsg sig message publicKey
      checkSigners ed message publicKeys signers) := rfl

/-- The loop is `checkSigners` over the signatures paired with the positions left,
and it panics after them if there are more signatures than positions. -/
theorem verifySignatures_eq (b : Bitmap) (signatures : List Sig) (i : ℕ) :
    verifySignatures ed message publicKeys b signatures i =
      checkSigners ed message publicKeys (signatures.zip (setBitsFrom b i)) >>= fun _ =>
        if signatures.length ≤ (setBitsFrom b i).length then pure () else .panic := by
  induction signatures generalizing i with
  | nil => simp [verifySignatures, checkSigners_nil]
  | cons sig signatures ih =>
    rw [setBitsFrom_eq_nextSetBit b i]
    cases hn : nextSetBit b i with
    | none => simp [verifySignatures, hn, checkSigners_nil]
    | some j =>
      simp only [verifySignatures, hn, liftM_option, ofOption_some, ok_bind, List.zip_cons_cons,
        checkSigners_cons, List.length_cons, Nat.add_le_add_iff_right]
      cases publicKeys[j]? with
      | none => rfl
      | some key =>
        simp only [ofOption_some, ok_bind, liftM_except]
        cases ed.verifyArbitraryMsg sig message key with
        | error e => rfl
        | ok u => exact ih (j + 1)

/-- `checkSigners` succeeds exactly when every signer has a key and verifies
under it. -/
theorem checkSigners_eq_ok {signers : List (Sig × ℕ)} :
    checkSigners ed message publicKeys signers = .ok () ↔
      ∀ p ∈ signers, ∃ key, publicKeys[p.2]? = some key ∧ ed.verifyArbitraryMsg p.1 message key = .ok () := by
  induction signers with
  | nil => simp [checkSigners_nil]
  | cons p signers ih =>
    obtain ⟨sig, i⟩ := p
    simp only [checkSigners_cons, liftM_option, liftM_except, List.forall_mem_cons]
    cases hk : publicKeys[i]? with
    | none => simp
    | some key =>
      cases hv : ed.verifyArbitraryMsg sig message key with
      | error e => simp [hv]
      | ok u => simp [hv, ih]

/-- `checkSigners` panics exactly when it reaches a position without a key,
every signer before it having verified. -/
theorem checkSigners_eq_panic {signers : List (Sig × ℕ)} :
    checkSigners ed message publicKeys signers = .panic ↔
      ∃ pre p post, signers = pre ++ p :: post ∧ publicKeys.length ≤ p.2 ∧
        ∀ q ∈ pre, ∃ key, publicKeys[q.2]? = some key ∧ ed.verifyArbitraryMsg q.1 message key = .ok () := by
  induction signers with
  | nil => simp [checkSigners_nil]
  | cons p signers ih =>
    obtain ⟨sig, i⟩ := p
    simp only [checkSigners_cons, liftM_option, liftM_except]
    cases hk : publicKeys[i]? with
    | none =>
      -- the first signer has no key: the panic is here
      have hi : publicKeys.length ≤ i := List.getElem?_eq_none_iff.mp hk
      simp only [ofOption_none, panic_bind, true_iff]
      exact ⟨[], (sig, i), signers, rfl, hi, by simp⟩
    | some key =>
      have hi : i < publicKeys.length := (List.getElem?_eq_some_iff.mp hk).1
      cases hv : ed.verifyArbitraryMsg sig message key with
      | error e =>
        simp only [ofOption_some, ok_bind, hv, ofExcept_error, err_bind, reduceCtorEq, false_iff]
        rintro ⟨pre, q, post, hsplit, hq, hpre⟩
        cases pre with
        | nil =>
          cases hsplit
          omega
        | cons r pre =>
          cases hsplit
          obtain ⟨key', hk', hv'⟩ := hpre _ (List.mem_cons_self ..)
          rw [hk] at hk'
          cases hk'
          rw [hv] at hv'
          cases hv'
      | ok u =>
        simp only [ofOption_some, ok_bind, hv, ofExcept_ok, ih]
        constructor
        · rintro ⟨pre, q, post, rfl, hq, hpre⟩
          exact ⟨(sig, i) :: pre, q, post, rfl, hq, by simpa [hk, hv] using hpre⟩
        · rintro ⟨pre, q, post, hsplit, hq, hpre⟩
          cases pre with
          | nil =>
            cases hsplit
            omega
          | cons r pre =>
            cases hsplit
            exact ⟨pre, q, post, rfl, hq, fun q hq => hpre q (List.mem_cons_of_mem _ hq)⟩

/-- `checkSigners` cannot panic when every position has a key. -/
theorem checkSigners_ne_panic {signers : List (Sig × ℕ)} (h : ∀ p ∈ signers, p.2 < publicKeys.length) :
    checkSigners ed message publicKeys signers ≠ .panic := by
  rw [Ne, checkSigners_eq_panic]
  rintro ⟨pre, p, post, rfl, hp, -⟩
  have := h p (by simp)
  omega

end checkSigners

/-! ## Verification -/

namespace MultiEd25519Signature

variable (ed : Ed25519 PK SK Sig)

/-- `s` is a valid threshold signature of `message` under `pk`: at least
`threshold` positions are marked, each names a key, and each signature verifies
under the key its position names. -/
structure Accepts (s : MultiEd25519Signature Sig) (message : List UInt8)
    (pk : MultiEd25519PublicKey PK) : Prop where
  threshold_le : pk.threshold.toNat ≤ (setBits s.bitmap).length
  lt_length : ∀ i ∈ setBits s.bitmap, i < pk.publicKeys.length
  verifies : ∀ p ∈ s.signers, ∃ key, pk.publicKeys[p.2]? = some key ∧
    ed.verifyArbitraryMsg p.1 message key = .ok ()

theorem length_signers {s : MultiEd25519Signature Sig} (hs : s.WellFormed) :
    s.signers.length = (setBits s.bitmap).length := by
  rw [signers_eq, List.length_zip, show s.signatures.length = (setBits s.bitmap).length from hs, Nat.min_self]

/-- Every marked position has its signer. -/
theorem mem_signers_of_mem_setBits {s : MultiEd25519Signature Sig} (hs : s.WellFormed) {i : ℕ}
    (hi : i ∈ setBits s.bitmap) : ∃ sig, (sig, i) ∈ s.signers := by
  obtain ⟨j, hj, rfl⟩ := List.mem_iff_getElem.mp hi
  have hj' : j < s.signers.length := by rw [length_signers hs]; exact hj
  have hjs : j < s.signatures.length := by rw [hs]; exact hj
  refine ⟨s.signatures[j], ?_⟩
  have := List.getElem_mem hj'
  simpa [signers_eq, List.getElem_zip] using this

/-- `verify_arbitrary_msg` in terms of the marked positions: the range check, the
threshold check, and `checkSigners` over the signers. -/
theorem verifyArbitraryMsg_eq {s : MultiEd25519Signature Sig} (hs : s.WellFormed) (message : List UInt8)
    (pk : MultiEd25519PublicKey PK) :
    s.verifyArbitraryMsg ed message pk =
      match bitmapLastSetBit s.bitmap with
      | some lastBit =>
        if lastBit.toNat ≤ pk.length then
          if (setBits s.bitmap).length < pk.threshold.toNat then .err notEnoughSignatures
          else checkSigners ed message pk.publicKeys s.signers
        else .err indexOutOfRange
      | none => .err indexOutOfRange := by
  unfold verifyArbitraryMsg
  cases bitmapLastSetBit s.bitmap with
  | none => rfl
  | some lastBit =>
    dsimp only
    split
    · simp only [bitmapCountOnes_eq]
      split
      · rfl
      · rw [verifySignatures_eq, setBitsFrom_zero, if_pos (Nat.le_of_eq hs), bind_pure_unit]
        rfl
    · rfl

/-- A bitmap with nothing marked fails the range check. -/
theorem verifyArbitraryMsg_of_setBits_eq_nil {s : MultiEd25519Signature Sig} (h : setBits s.bitmap = [])
    (message : List UInt8) (pk : MultiEd25519PublicKey PK) :
    s.verifyArbitraryMsg ed message pk = .err indexOutOfRange := by
  unfold verifyArbitraryMsg
  rw [Iff.mpr bitmapLastSetBit_eq_none h]
  rfl

/-- The range check compares the last marked position with `public_key.length()`,
the byte length `32 * N + 1` of the key: with one key or more, every nonempty
bitmap passes it. -/
theorem rangeCheck_of_ne_nil {s : MultiEd25519Signature Sig} {pk : MultiEd25519PublicKey PK}
    (hpk : pk.publicKeys ≠ []) (hne : setBits s.bitmap ≠ []) :
    ∃ lastBit, bitmapLastSetBit s.bitmap = some lastBit ∧ lastBit.toNat ≤ pk.length := by
  cases hl : bitmapLastSetBit s.bitmap with
  | none => exact absurd (Iff.mp bitmapLastSetBit_eq_none hl) hne
  | some lastBit =>
    have hlt := lt_of_mem_setBits (bitmapLastSetBit_eq_some hl).1
    have hn : 0 < pk.publicKeys.length := List.length_pos_iff.mpr hpk
    refine ⟨lastBit, rfl, ?_⟩
    simp only [MultiEd25519PublicKey.length, ed25519PublicKeyLength]
    simp only [maxNumOfKeys] at hlt
    omega

/-- With one key or more, the range check does nothing beyond rejecting an
empty bitmap: verification is the threshold check and the walk. -/
theorem verifyArbitraryMsg_eq_of_ne_nil {s : MultiEd25519Signature Sig} (hs : s.WellFormed)
    (message : List UInt8) {pk : MultiEd25519PublicKey PK} (hpk : pk.publicKeys ≠ [])
    (hne : setBits s.bitmap ≠ []) :
    s.verifyArbitraryMsg ed message pk =
      if (setBits s.bitmap).length < pk.threshold.toNat then .err notEnoughSignatures
      else checkSigners ed message pk.publicKeys s.signers := by
  obtain ⟨lastBit, hl, hle⟩ := rangeCheck_of_ne_nil hpk hne
  rw [verifyArbitraryMsg_eq ed hs, hl]
  exact if_pos hle

/-- Whatever `verify_arbitrary_msg` accepts is a valid threshold signature. -/
theorem verifyArbitraryMsg_sound {s : MultiEd25519Signature Sig} (hs : s.WellFormed) {message : List UInt8}
    {pk : MultiEd25519PublicKey PK} (h : s.verifyArbitraryMsg ed message pk = .ok ()) :
    Accepts ed s message pk := by
  rw [verifyArbitraryMsg_eq ed hs] at h
  split at h
  · split at h
    · split at h
      · cases h
      · rename_i hthreshold
        have hverifies := (checkSigners_eq_ok ed message pk.publicKeys).mp h
        refine ⟨by omega, fun i hi => ?_, hverifies⟩
        -- a marked position is the position of a signer, which has a key
        obtain ⟨sig, hsig⟩ := mem_signers_of_mem_setBits hs hi
        obtain ⟨key, hkey, -⟩ := hverifies _ hsig
        exact (List.getElem?_eq_some_iff.mp hkey).1
    · cases h
  · cases h

/-- For keys and signatures of the shape the constructors give,
`verify_arbitrary_msg` returns `Ok` exactly on valid threshold signatures. -/
theorem verifyArbitraryMsg_eq_ok_iff {s : MultiEd25519Signature Sig} (hs : s.WellFormed) (message : List UInt8)
    {pk : MultiEd25519PublicKey PK} (hpk : pk.WellFormed) :
    s.verifyArbitraryMsg ed message pk = .ok () ↔ Accepts ed s message pk := by
  refine ⟨verifyArbitraryMsg_sound ed hs, fun h => ?_⟩
  have hne : setBits s.bitmap ≠ [] := by
    intro hnil
    have hle := h.threshold_le
    rw [hnil, List.length_nil] at hle
    have := hpk.threshold_pos
    omega
  rw [verifyArbitraryMsg_eq_of_ne_nil ed hs message hpk.publicKeys_ne_nil hne, if_neg (by have := h.threshold_le; omega)]
  exact (checkSigners_eq_ok ed message pk.publicKeys).mpr h.verifies

/-- For keys and signatures of the shape the constructors give,
`verify_arbitrary_msg` panics exactly when enough positions are marked and the
walk reaches a position that names no key before any signature fails. -/
theorem verifyArbitraryMsg_eq_panic_iff {s : MultiEd25519Signature Sig} (hs : s.WellFormed)
    (message : List UInt8) {pk : MultiEd25519PublicKey PK} (hpk : pk.WellFormed) :
    s.verifyArbitraryMsg ed message pk = .panic ↔
      pk.threshold.toNat ≤ (setBits s.bitmap).length ∧ checkSigners ed message pk.publicKeys s.signers = .panic := by
  by_cases hne : setBits s.bitmap = []
  · rw [verifyArbitraryMsg_of_setBits_eq_nil ed hne, hne]
    have := hpk.threshold_pos
    simp only [reduceCtorEq, List.length_nil, false_iff, not_and]
    omega
  · rw [verifyArbitraryMsg_eq_of_ne_nil ed hs message hpk.publicKeys_ne_nil hne]
    split
    · simp only [reduceCtorEq, false_iff, not_and]
      omega
    · simp only [iff_and_self]
      omega

/-- What the range check was meant to give: with every marked position naming a
key, verification cannot panic. -/
theorem verifyArbitraryMsg_ne_panic {s : MultiEd25519Signature Sig} (hs : s.WellFormed) (message : List UInt8)
    {pk : MultiEd25519PublicKey PK} (hlt : ∀ i ∈ setBits s.bitmap, i < pk.publicKeys.length) :
    s.verifyArbitraryMsg ed message pk ≠ .panic := by
  rw [verifyArbitraryMsg_eq ed hs]
  split
  · split
    · split
      · simp
      · exact checkSigners_ne_panic ed message pk.publicKeys fun p hp => hlt p.2 (List.of_mem_zip hp).2
    · simp
  · simp

/-- The panic the range check lets through: a one-key public key and a
signature for position 5, both built by the crate's constructors. Verification
indexes `public_keys[5]` of a list of one key. -/
theorem verifyArbitraryMsg_panics (message : List UInt8) (publicKey : PK) (signature : Sig) :
    ∃ pk s, MultiEd25519PublicKey.new [publicKey] 1 = .ok pk ∧
      MultiEd25519Signature.new [(signature, 5)] = .ok s ∧
      s.verifyArbitraryMsg ed message pk = .panic := by
  have hpk : MultiEd25519PublicKey.new [publicKey] 1 = .ok ⟨[publicKey], 1⟩ := rfl
  have hs : MultiEd25519Signature.new [(signature, 5)] = .ok ⟨[signature], #v[4, 0, 0, 0]⟩ := by
    simp [MultiEd25519Signature.new, List.mergeSort_singleton]
    rfl
  have hset : setBits #v[4, 0, 0, 0] = [5] := by decide
  refine ⟨_, _, hpk, hs, ?_⟩
  rw [verifyArbitraryMsg_eq_panic_iff ed (new_wellFormed hs) message
    (MultiEd25519PublicKey.new_wellFormed hpk)]
  refine ⟨by simp [hset], ?_⟩
  simp [signers_eq, hset, checkSigners_nil, checkSigners_cons]

/-- Completeness: a signature made by `sign` verifies under the public key of the
same private key, if Ed25519 signing is complete. -/
theorem sign_verifyArbitraryMsg (hed : ed.Complete) {sk : MultiEd25519PrivateKey SK} (hsk : sk.WellFormed)
    (message : List UInt8) :
    ∃ s, sk.sign ed message = some s ∧
      s.verifyArbitraryMsg ed message (MultiEd25519PublicKey.ofPrivateKey ed sk) = .ok () := by
  obtain ⟨s, hsign, hsigs, hset⟩ := MultiEd25519PrivateKey.sign_eq ed hsk message
  obtain ⟨s', hsign', hwf⟩ := MultiEd25519PrivateKey.sign_wellFormed ed hsk message
  rw [hsign, Option.some.injEq] at hsign'
  subst hsign'
  refine ⟨s, hsign, (verifyArbitraryMsg_eq_ok_iff ed hwf message
    (MultiEd25519PublicKey.ofPrivateKey_wellFormed ed hsk)).mpr ⟨?_, ?_, ?_⟩⟩
  · simp [hset, MultiEd25519PublicKey.ofPrivateKey]
  · intro i hi
    rw [hset, List.mem_range] at hi
    simpa [MultiEd25519PublicKey.ofPrivateKey] using Nat.lt_of_lt_of_le hi hsk.threshold_le
  · -- the `j`-th signer is the `j`-th key's signature at position `j`
    intro p hp
    rw [signers_eq, hsigs, hset] at hp
    obtain ⟨j, hj, rfl⟩ := List.mem_iff_getElem.mp hp
    simp only [List.length_zip, List.length_map, List.length_take, List.length_range] at hj
    have hjn : j < sk.privateKeys.length := by omega
    refine ⟨ed.publicKey sk.privateKeys[j], ?_, ?_⟩
    · simp [MultiEd25519PublicKey.ofPrivateKey, List.getElem_zip, hjn]
    · simpa [List.getElem_zip] using hed sk.privateKeys[j] message

/-- A stand-in for Ed25519 whose signature of a message is the key with the message: complete
by construction. -/
def Ed25519.echo : Ed25519 ℕ ℕ (ℕ × List UInt8) where
  publicKeyTryFrom := fun _ => .ok 0
  privateKeyTryFrom := fun _ => .ok 0
  signatureTryFrom := fun _ => .ok (0, [])
  publicKey := id
  signArbitraryMessage := fun sk message => (sk, message)
  verifyArbitraryMsg := fun sig message pk => if sig = (pk, message) then .ok () else .error "invalid"

theorem Ed25519.echo_complete : Ed25519.echo.Complete := fun _ _ => if_pos rfl

/-- Two of three keys sign `[1, 2]`, and the signature verifies. -/
theorem sign_verifyArbitraryMsg_echo :
    ∃ s, (⟨[3, 4, 5], 2⟩ : MultiEd25519PrivateKey ℕ).sign Ed25519.echo [1, 2] = some s ∧
      s.verifyArbitraryMsg Ed25519.echo [1, 2] (MultiEd25519PublicKey.ofPrivateKey Ed25519.echo ⟨[3, 4, 5], 2⟩) =
        .ok () :=
  sign_verifyArbitraryMsg Ed25519.echo Ed25519.echo_complete ⟨by decide, by decide, by decide⟩ [1, 2]

/-- A signature built by `new` verifies exactly when there are at least
`threshold` signatures and each verifies under the key at the index it was given. -/
theorem new_verifyArbitraryMsg {signatures : List (Sig × UInt8)} {s : MultiEd25519Signature Sig}
    (h : MultiEd25519Signature.new signatures = .ok s) (message : List UInt8)
    {pk : MultiEd25519PublicKey PK} (hpk : pk.WellFormed) :
    s.verifyArbitraryMsg ed message pk = .ok () ↔
      pk.threshold.toNat ≤ signatures.length ∧
        ∀ p ∈ signatures, ∃ key, pk.publicKeys[p.2.toNat]? = some key ∧
          ed.verifyArbitraryMsg p.1 message key = .ok () := by
  obtain ⟨hs, hsigners⟩ := new_signers h
  have hlen : (setBits s.bitmap).length = signatures.length := by
    rw [← length_signers hs, hsigners, List.length_map, List.length_mergeSort]
  -- a signer is a signature with its index, in the sorted order
  have hmem : ∀ q : Sig × ℕ, q ∈ s.signers ↔ ∃ p ∈ signatures, (p.1, p.2.toNat) = q := by
    intro q
    rw [hsigners, List.mem_map]
    simp only [List.mem_mergeSort]
  rw [verifyArbitraryMsg_eq_ok_iff ed hs message hpk]
  constructor
  · intro hacc
    refine ⟨hlen ▸ hacc.threshold_le, fun p hp => ?_⟩
    exact hacc.verifies (p.1, p.2.toNat) ((hmem _).mpr ⟨p, hp, rfl⟩)
  · rintro ⟨hthreshold, hverifies⟩
    have hsigners_ok : ∀ q ∈ s.signers, ∃ key, pk.publicKeys[q.2]? = some key ∧
        ed.verifyArbitraryMsg q.1 message key = .ok () := by
      intro q hq
      obtain ⟨p, hp, rfl⟩ := (hmem q).mp hq
      exact hverifies p hp
    refine ⟨hlen ▸ hthreshold, fun i hi => ?_, hsigners_ok⟩
    obtain ⟨sig, hsig⟩ := mem_signers_of_mem_setBits hs hi
    obtain ⟨key, hkey, -⟩ := hsigners_ok _ hsig
    exact (List.getElem?_eq_some_iff.mp hkey).1

end MultiEd25519Signature

end Dijets.Crypto
