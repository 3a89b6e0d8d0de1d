import Dijets.Consensus.Verify
import Dijets.Consensus.PersistentStorage

/-!
# SafetyRules

`SafetyRules` is the part of a validator that decides whether it may sign: it
owns the persisted `SafetyData` (the epoch, the last voted round, the preferred
round of the 3-chain rule and the one-chain round of the 2-chain rule, and the
last vote) and refuses to sign a vote, proposal or timeout that could
contradict what it signed before.

Each `guarded_*` method of `safety_rules.rs` is a computation in
`EStateM Error (SafetyRules σ)`: `&mut self` is the state, `Result<_, Error>`
the outcome, and Rust's `?` the monad's bind, so that what a method changes
before it fails stays changed, as in the source. Helpers that take
`&mut SafetyData` without touching `self` return the updated copy instead.
The logging and metrics of `run_and_log` have no effect on either and are left
out. The clock that `verify_well_formed` reads is the argument `now`.
-/

set_option autoImplicit false

namespace Dijets.Consensus

/-- The signer SafetyRules holds once initialized: the consensus key itself, or a
handle naming the key version held in secure storage. -/
inductive ConfigurableValidatorSigner where
  | signer (author : Author) (consensusKey : Ed25519PrivateKey)
  | handle (author : Author) (keyVersion : Ed25519PublicKey)
deriving DecidableEq, Repr

namespace ConfigurableValidatorSigner

def author : ConfigurableValidatorSigner → Author
  | .signer author _ => author
  | .handle author _ => author

def publicKey (env : Env) : ConfigurableValidatorSigner → Ed25519PublicKey
  | .signer _ key => env.publicKey key
  | .handle _ keyVersion => keyVersion

/-- A held key signs directly; a handle asks the storage to sign with the key of
its version, which may fail. -/
def sign {σ : Type} (env : Env) (st : Storage σ) (message : SigningMessage) :
    ConfigurableValidatorSigner → EStateM Error (PersistentSafetyStorage σ) Ed25519Signature
  | .signer _ key => pure (env.sign key message)
  | .handle _ keyVersion => PersistentSafetyStorage.sign st keyVersion message

end ConfigurableValidatorSigner

structure SafetyRules (σ : Type) where
  persistentStorage : PersistentSafetyStorage σ
  executionPublicKey : Option Ed25519PublicKey
  exportConsensusKey : Bool
  validatorSigner : Option ConfigurableValidatorSigner
  epochState : Option EpochState
  decoupledExecution : Bool

/-- `next_round`: the round after `round`, unless that overflows a `u64`. -/
def nextRound (round : ℕ) : Except Error ℕ :=
  if round < u64Max then .ok (round + 1) else .error (.incorrectRound round)

@[simp] theorem nextRound_eq_ok {round r : ℕ} :
    nextRound round = .ok r ↔ round < u64Max ∧ r = round + 1 := by
  unfold nextRound
  by_cases h : round < u64Max <;> simp [h, eq_comm]

/-- `Error`'s `Display`, the texts of its `#[error]` attributes. -/
def Error.display : Error → String
  | .incorrectEpoch e1 e2 => s!"Provided epoch, {e1}, does not match expected epoch, {e2}"
  | .incorrectRound r => s!"block has next round that wraps around: {r}"
  | .incorrectLastVotedRound r l =>
    s!"Provided round, {r}, is incompatible with last voted round, {l}"
  | .incorrectPreferredRound r p =>
    s!"Provided round, {r}, is incompatible with preferred round, {p}"
  | .invalidAccumulatorExtension m => s!"Unable to verify that the new tree extends the parent: {m}"
  | .invalidEpochChangeProof m => s!"Invalid EpochChangeProof: {m}"
  | .internalError m => s!"Internal error: {m}"
  | .invalidLedgerInfo => "No next_epoch_state specified in the provided Ledger Info"
  | .invalidProposal m => s!"Invalid proposal: {m}"
  | .invalidQuorumCertificate m => s!"Invalid QC: {m}"
  | .notInitialized m => s!"{m} is not set, SafetyRules is not initialized"
  | .secureStorageMissingDataError m => s!"Data not found in secure storage: {m}"
  | .secureStorageUnexpectedError m => s!"Unexpected error returned by secure storage: {m}"
  | .serializationError m => s!"Serialization error: {m}"
  | .validatorKeyNotFound m => s!"Validator key not found: {m}"
  | .validatorNotInSet m => s!"The validator is not in the validator set. Address not in set: {m}"
  | .voteProposalSignatureNotFound => "Vote proposal missing expected signature"
  | .notSafeToVote r q t h =>
    s!"Does not satisfy 2-chain voting rule. Round {r}, Quorum round {q}, TC round {t},  HQC round in TC {h}"
  | .notSafeToTimeout r q t o =>
    s!"Does not satisfy 2-chain timeout rule. Round {r}, Quorum round {q}, TC round {t}, one-chain round {o}"
  | .invalidTimeoutCertificate m => s!"Invalid TC: {m}"
  | .inconsistentExecutionResult o e =>
    s!"Inconsistent Execution Result: Ordered BlockInfo doesn't match executed BlockInfo. Ordered: {o}, Executed: {e}"
  | .invalidOrderedLedgerInfo m =>
    s!"Invalid Ordered LedgerInfoWithSignatures: Empty or at least one of executed_state_id, version, or epoch_state are not dummy value: {m}"

namespace SafetyRules

variable {σ : Type} (st : Storage σ) (env : Env)

/-- Run a `PersistentSafetyStorage` method on the storage SafetyRules owns. -/
def storage {α : Type} (m : EStateM Error (PersistentSafetyStorage σ) α) :
    EStateM Error (SafetyRules σ) α := fun s =>
  match m s.persistentStorage with
  | .ok a p => .ok a { s with persistentStorage := p }
  | .error e p => .error e { s with persistentStorage := p }

/-- A `Result` computed without `self`, followed by `?`. -/
def ofExcept {α : Type} : Except Error α → EStateM Error (SafetyRules σ) α
  | .ok a => pure a
  | .error e => throw e

/-- `SafetyRules::new`: the execution key is read when proposals must carry
its signature; a failed read is the `expect` panic, `none`. -/
def new (persistentStorage : PersistentSafetyStorage σ)
    (verifyVoteProposalSignature exportConsensusKey decoupledExecution : Bool) :
    Option (SafetyRules σ) :=
  let fresh (p : PersistentSafetyStorage σ) (key : Option Ed25519PublicKey) : SafetyRules σ :=
    { persistentStorage := p, executionPublicKey := key, exportConsensusKey := exportConsensusKey,
      validatorSigner := none, epochState := none, decoupledExecution := decoupledExecution }
  if verifyVoteProposalSignature && !decoupledExecution then
    match PersistentSafetyStorage.executionPublicKey st persistentStorage with
    | .ok key p => some (fresh p (some key))
    | .error _ _ => none
  else some (fresh persistentStorage none)

def signer : EStateM Error (SafetyRules σ) ConfigurableValidatorSigner := do
  match (← get).validatorSigner with
  | some signer => pure signer
  | none => throw (.notInitialized "validator_signer")

def getEpochState : EStateM Error (SafetyRules σ) EpochState := do
  match (← get).epochState with
  | some epochState => pure epochState
  | none => throw (.notInitialized "epoch_state")

def sign (message : SigningMessage) : EStateM Error (SafetyRules σ) Ed25519Signature := do
  let signer ← signer
  storage (signer.sign env st message)

/-- `verify_epoch`: the request is for the epoch of the stored safety data. -/
def verifyEpoch (epoch : ℕ) (safetyData : SafetyData) : Except Error Unit :=
  if epoch != safetyData.epoch then .error (.incorrectEpoch epoch safetyData.epoch) else .ok ()

@[simp] theorem verifyEpoch_eq_ok {epoch : ℕ} {safetyData : SafetyData} {u : Unit} :
    verifyEpoch epoch safetyData = .ok u ↔ epoch = safetyData.epoch := by
  unfold verifyEpoch
  by_cases h : epoch = safetyData.epoch <;> simp [h]

/-- `verify_qc`: the certificate is valid for the current epoch's validators. -/
def verifyQc (qc : QuorumCert) : EStateM Error (SafetyRules σ) Unit := do
  let epochState ← getEpochState
  match qc.verify env epochState.verifier with
  | .ok () => pure ()
  | .error e => throw (.invalidQuorumCertificate e)

/-- `observe_qc`: raise the one-chain round to the certified block's round and
the preferred round to its parent's; report whether either moved. -/
def observeQc (qc : QuorumCert) (safetyData : SafetyData) : SafetyData × Bool :=
  let oneChain := qc.certifiedBlock.round
  let twoChain := qc.parentBlock.round
  let d₁ := if oneChain > safetyData.oneChainRound then
    { safetyData with oneChainRound := oneChain } else safetyData
  let d₂ := if twoChain > d₁.preferredRound then { d₁ with preferredRound := twoChain } else d₁
  (d₂, decide (oneChain > safetyData.oneChainRound) || decide (twoChain > safetyData.preferredRound))

/-- `observe_qc` raises the one-chain and preferred rounds to the certificate's
and leaves the rest of the safety data alone. -/
theorem observeQc_fst (qc : QuorumCert) (d : SafetyData) :
    (observeQc qc d).1 = { d with
      oneChainRound := max d.oneChainRound qc.certifiedBlock.round
      preferredRound := max d.preferredRound qc.parentBlock.round } := by
  cases d with
  | mk epoch lastVotedRound preferredRound oneChainRound lastVote =>
    simp only [observeQc]
    by_cases h1 : oneChainRound < qc.certifiedBlock.round <;>
    by_cases h2 : preferredRound < qc.parentBlock.round <;>
      simp [h1, h2] <;> omega

@[simp, grind =] theorem observeQc_epoch (qc : QuorumCert) (d : SafetyData) :
    (observeQc qc d).1.epoch = d.epoch := by
  simp [observeQc_fst]

@[simp, grind =] theorem observeQc_lastVotedRound (qc : QuorumCert) (d : SafetyData) :
    (observeQc qc d).1.lastVotedRound = d.lastVotedRound := by
  simp [observeQc_fst]

@[simp, grind =] theorem observeQc_lastVote (qc : QuorumCert) (d : SafetyData) :
    (observeQc qc d).1.lastVote = d.lastVote := by
  simp [observeQc_fst]

@[simp, grind =] theorem observeQc_preferredRound (qc : QuorumCert) (d : SafetyData) :
    (observeQc qc d).1.preferredRound = max d.preferredRound qc.parentBlock.round := by
  simp [observeQc_fst]

@[simp, grind =] theorem observeQc_oneChainRound (qc : QuorumCert) (d : SafetyData) :
    (observeQc qc d).1.oneChainRound = max d.oneChainRound qc.certifiedBlock.round := by
  simp [observeQc_fst]

theorem le_observeQc_preferredRound (qc : QuorumCert) (d : SafetyData) :
    d.preferredRound ≤ (observeQc qc d).1.preferredRound := by
  rw [observeQc_fst]
  exact Nat.le_max_left _ _

theorem le_observeQc_oneChainRound (qc : QuorumCert) (d : SafetyData) :
    d.oneChainRound ≤ (observeQc qc d).1.oneChainRound := by
  rw [observeQc_fst]
  exact Nat.le_max_left _ _

/-- `extension_check`: the executed result extends the parent's executed state. -/
def extensionCheck (voteProposal : VoteProposal) : Except Error VoteData :=
  match env.verifyExtension voteProposal.accumulatorExtensionProof
      voteProposal.block.quorumCert.certifiedBlock.executedStateId with
  | .ok newTree => .ok (voteProposal.voteDataWithExtensionProof newTree)
  | .error e => .error (.invalidAccumulatorExtension e)

/-- The checked vote data proposes the proposal's block, over its certificate. -/
theorem extensionCheck_proposed {voteProposal : VoteProposal} {voteData : VoteData}
    (h : extensionCheck env voteProposal = .ok voteData) :
    voteData.proposed.epoch = voteProposal.block.epoch ∧
      voteData.proposed.round = voteProposal.block.round ∧
      voteData.parent = voteProposal.block.quorumCert.certifiedBlock := by
  unfold extensionCheck at h
  split at h
  · cases h
    exact ⟨rfl, rfl, rfl⟩
  · cases h

/-- `construct_ledger_info`: commit the grandparent of the proposed block when the
three rounds are consecutive (the 3-chain rule), otherwise commit nothing. -/
def constructLedgerInfo (proposedBlock : Block) (consensusDataHash : HashValue) :
    Except Error LedgerInfo := do
  let block2 := proposedBlock.round
  let block1 := proposedBlock.quorumCert.certifiedBlock.round
  let block0 := proposedBlock.quorumCert.parentBlock.round
  -- `&&` short-circuits: the second `next_round` runs only after the first equality
  let commit ← do
    if (← nextRound block0) == block1 then pure ((← nextRound block1) == block2) else pure false
  let commitInfo := if commit then proposedBlock.quorumCert.parentBlock else env.emptyBlockInfo
  pure { commitInfo := commitInfo, consensusDataHash := consensusDataHash }

/-- Second voting rule: the certificate's block is not older than the preferred round. -/
def verifyAndUpdatePreferredRound (qc : QuorumCert) (safetyData : SafetyData) :
    Except Error (SafetyData × Bool) :=
  let preferredRound := safetyData.preferredRound
  let oneChainRound := qc.certifiedBlock.round
  if oneChainRound < preferredRound then
    .error (.incorrectPreferredRound oneChainRound preferredRound)
  else .ok (observeQc qc safetyData)

@[simp] theorem verifyAndUpdatePreferredRound_eq_ok {qc : QuorumCert} {safetyData : SafetyData}
    {r : SafetyData × Bool} :
    verifyAndUpdatePreferredRound qc safetyData = .ok r ↔
      safetyData.preferredRound ≤ qc.certifiedBlock.round ∧ r = observeQc qc safetyData := by
  unfold verifyAndUpdatePreferredRound
  by_cases h : qc.certifiedBlock.round < safetyData.preferredRound
  · simp [h, Nat.not_le.mpr h]
  · simp [h, Nat.le_of_not_lt h, eq_comm]

/-- First voting rule: the round is above the last voted round, which it becomes. -/
def verifyAndUpdateLastVoteRound (round : ℕ) (safetyData : SafetyData) :
    Except Error SafetyData :=
  if round ≤ safetyData.lastVotedRound then
    .error (.incorrectLastVotedRound round safetyData.lastVotedRound)
  else .ok { safetyData with lastVotedRound := round }

@[simp] theorem verifyAndUpdateLastVoteRound_eq_ok {round : ℕ} {safetyData r : SafetyData} :
    verifyAndUpdateLastVoteRound round safetyData = .ok r ↔
      safetyData.lastVotedRound < round ∧ r = { safetyData with lastVotedRound := round } := by
  unfold verifyAndUpdateLastVoteRound
  by_cases h : round ≤ safetyData.lastVotedRound
  · simp [h, Nat.not_lt.mpr h]
  · simp [h, Nat.lt_of_not_le h, eq_comm]

/-- `verify_author`: a proposal to sign is this validator's own. -/
def verifyAuthor (author : Option Author) : EStateM Error (SafetyRules σ) Unit := do
  let validatorSignerAuthor := (← signer).author
  let some author := author | throw (.invalidProposal "No author found in the proposal")
  if validatorSignerAuthor != author then
    throw (.invalidProposal "Proposal author is not validator signer!")

/-- `verify_proposal`: the execution signature when one is required, the epoch,
the block's certificate, its proposer's signature and its well-formedness; the
vote data is ordering-only under decoupled execution and carries the executed
state otherwise. -/
def verifyProposal (maybeSigned : MaybeSignedVoteProposal) (now : ℕ) :
    EStateM Error (SafetyRules σ) VoteData := do
  let voteProposal := maybeSigned.voteProposal
  if let some publicKey := (← get).executionPublicKey then
    let some signature := maybeSigned.signature | throw .voteProposalSignatureNotFound
    match env.verifySignature publicKey (.voteProposal voteProposal) signature with
    | .ok () => pure ()
    | .error e => throw (.internalError e)
  let proposedBlock := voteProposal.block
  let safetyData ← storage (PersistentSafetyStorage.safetyData st)
  ofExcept (verifyEpoch proposedBlock.epoch safetyData)
  verifyQc env proposedBlock.quorumCert
  let epochState ← getEpochState
  match proposedBlock.validateSignature env epochState.verifier with
  | .ok () => pure ()
  | .error e => throw (.invalidProposal e)
  match proposedBlock.verifyWellFormed env now with
  | .ok () => pure ()
  | .error e => throw (.invalidProposal e)
  if (← get).decoupledExecution then
    pure (voteProposal.voteDataOrderingOnly env.accumulatorPlaceholderHash)
  else ofExcept (extensionCheck env voteProposal)

/-- `guarded_consensus_state`. The author is read only for the log line, but a
failure to read it still fails the call. -/
def guardedConsensusState : EStateM Error (SafetyRules σ) ConsensusState := do
  let _waypoint ← storage (PersistentSafetyStorage.waypoint st)
  let _safetyData ← storage (PersistentSafetyStorage.safetyData st)
  let _author ← storage (PersistentSafetyStorage.author st)
  let safetyData ← storage (PersistentSafetyStorage.safetyData st)
  let waypoint ← storage (PersistentSafetyStorage.waypoint st)
  let inValidatorSet := (← get).validatorSigner.isSome
  pure { safetyData := safetyData, waypoint := waypoint, inValidatorSet := inValidatorSet }

/-- The outcome of `m` as a value, so that the caller can match on its error. -/
def attempt {α : Type} (m : EStateM Error (SafetyRules σ) α) :
    EStateM Error (SafetyRules σ) (Except Error α) := fun s =>
  match m s with
  | .ok a s' => .ok (.ok a) s'
  | .error e s' => .ok (.error e) s'

/-- The key reconciliation at the end of `guarded_initialize`: keep the signer if
its key is the one the new validator set expects, otherwise export that key from
storage or install a handle and check that storage can sign with it. -/
def reconcileKey (author : Author) (expectedKey : Option Ed25519PublicKey) :
    EStateM Error (SafetyRules σ) Unit :=
  match expectedKey with
  | none => throw (.validatorNotInSet (env.showAuthor author))
  | some expectedKey => do
    let s ← get
    let currentKey := s.validatorSigner.map (·.publicKey env)
    if currentKey == some expectedKey then
      pure ()
    else if s.exportConsensusKey then
      match ← attempt (storage (PersistentSafetyStorage.consensusKeyForVersion st expectedKey)) with
      | .ok consensusKey =>
        modify fun s => { s with validatorSigner := some (.signer author consensusKey) }
      | .error (.secureStorageMissingDataError e) => throw (.validatorKeyNotFound e)
      | .error e => throw e
    else do
      modify fun s => { s with validatorSigner := some (.handle author expectedKey) }
      match ← attempt (sign st env (.timeout { epoch := 0, round := 0 })) with
      | .ok _ => pure ()
      | .error e => throw (.validatorKeyNotFound e.display)

/-- `guarded_initialize`: verify the epoch-change proof against the waypoint;
on a newer epoch, move the waypoint and reset the safety data to that epoch; then
adopt the epoch state and reconcile the signing key, dropping the signer if that
fails. -/
def guardedInitialize (proof : EpochChangeProof) : EStateM Error (SafetyRules σ) Unit := do
  let waypoint ← storage (PersistentSafetyStorage.waypoint st)
  let lastLi ← match env.verifyEpochChangeProof proof waypoint with
    | .ok li => pure li
    | .error e => throw (.invalidEpochChangeProof e)
  let ledgerInfo := lastLi.ledgerInfo
  let some epochState := env.nextEpochState ledgerInfo | throw .invalidLedgerInfo
  let currentEpoch := (← storage (PersistentSafetyStorage.safetyData st)).epoch
  if currentEpoch < epochState.epoch then
    -- waypoint first, then the round information; once the epoch is set this
    -- branch cannot be re-entered
    let waypoint ← match env.newEpochBoundary ledgerInfo with
      | .ok w => pure w
      | .error e => throw (.internalError e)
    storage (PersistentSafetyStorage.setWaypoint st waypoint)
    storage (PersistentSafetyStorage.setSafetyData st
      { epoch := epochState.epoch, lastVotedRound := 0, preferredRound := 0, oneChainRound := 0,
        lastVote := none })
  modify fun s => { s with epochState := some epochState }
  let author ← storage (PersistentSafetyStorage.author st)
  let expectedKey := env.getPublicKey epochState.verifier author
  match ← attempt (reconcileKey st env author expectedKey) with
  | .ok () => pure ()
  | .error e => do
    modify fun s => { s with validatorSigner := none }
    throw e

/-- `guarded_construct_and_sign_vote`: the 3-chain vote. A proposal for the round
of the last vote gets that vote back; otherwise both voting rules must hold, and
the updated safety data with the new vote is persisted before the vote is
returned. -/
def guardedConstructAndSignVote (maybeSigned : MaybeSignedVoteProposal) (now : ℕ) :
    EStateM Error (SafetyRules σ) Vote := do
  let _ ← signer
  let voteData ← verifyProposal st env maybeSigned now
  let safetyData ← storage (PersistentSafetyStorage.safetyData st)
  let proposedBlock := maybeSigned.voteProposal.block
  if let some vote := safetyData.lastVote then
    if vote.voteData.proposed.round == proposedBlock.round then
      return vote
  let (safetyData, _) ← ofExcept (verifyAndUpdatePreferredRound proposedBlock.quorumCert safetyData)
  let safetyData ← ofExcept (verifyAndUpdateLastVoteRound proposedBlock.blockData.round safetyData)
  let author := (← signer).author
  let ledgerInfo ← ofExcept (constructLedgerInfo env proposedBlock (env.hashVoteData voteData))
  let signature ← sign st env (.ledgerInfo ledgerInfo)
  let vote := Vote.newWithSignature voteData author ledgerInfo signature
  storage (PersistentSafetyStorage.setSafetyData st { safetyData with lastVote := some vote })
  pure vote

/-- `guarded_sign_proposal`: sign one's own proposal for a round above the last
voted round; the preferred round it computes is not persisted. -/
def guardedSignProposal (blockData : BlockData) : EStateM Error (SafetyRules σ) Ed25519Signature := do
  let _ ← signer
  verifyAuthor blockData.author
  let safetyData ← storage (PersistentSafetyStorage.safetyData st)
  ofExcept (verifyEpoch blockData.epoch safetyData)
  if blockData.round ≤ safetyData.lastVotedRound then
    throw (.invalidProposal
      s!"Proposed round {blockData.round} is not higher than last voted round {safetyData.lastVotedRound}")
  verifyQc env blockData.quorumCert
  let _ ← ofExcept (verifyAndUpdatePreferredRound blockData.quorumCert safetyData)
  sign st env (.blockData blockData)

/-- `guarded_sign_timeout`: a timeout above the preferred round and not below the
last voted round; a higher round is persisted as the last voted round before
signing. -/
def guardedSignTimeout (timeout : Timeout) : EStateM Error (SafetyRules σ) Ed25519Signature := do
  let _ ← signer
  let safetyData ← storage (PersistentSafetyStorage.safetyData st)
  ofExcept (verifyEpoch timeout.epoch safetyData)
  if timeout.round ≤ safetyData.preferredRound then
    throw (.incorrectPreferredRound timeout.round safetyData.preferredRound)
  if timeout.round < safetyData.lastVotedRound then
    throw (.incorrectLastVotedRound timeout.round safetyData.lastVotedRound)
  if timeout.round > safetyData.lastVotedRound then
    let safetyData ← ofExcept (verifyAndUpdateLastVoteRound timeout.round safetyData)
    storage (PersistentSafetyStorage.setSafetyData st safetyData)
  sign st env (.timeout timeout)

/-- `guarded_sign_commit_vote`: sign the executed ledger info of an ordered-only
ledger info that a quorum signed, when the two agree on the ordering. -/
def guardedSignCommitVote (ledgerInfo : LedgerInfoWithSignatures) (newLedgerInfo : LedgerInfo) :
    EStateM Error (SafetyRules σ) Ed25519Signature := do
  let _ ← signer
  let oldLedgerInfo := ledgerInfo.ledgerInfo
  if !env.isOrderedOnly oldLedgerInfo.commitInfo then
    throw (.invalidOrderedLedgerInfo (env.showLedgerInfo oldLedgerInfo))
  if !env.matchOrderedOnly oldLedgerInfo.commitInfo newLedgerInfo.commitInfo then
    throw (.inconsistentExecutionResult (env.showBlockInfo oldLedgerInfo.commitInfo)
      (env.showBlockInfo newLedgerInfo.commitInfo))
  let epochState ← getEpochState
  match env.verifySignatures ledgerInfo epochState.verifier with
  | .ok () => pure ()
  | .error e => throw (.invalidQuorumCertificate e)
  sign st env (.ledgerInfo newLedgerInfo)

end SafetyRules

end Dijets.Consensus
