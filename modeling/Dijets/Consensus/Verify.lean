import Dijets.Consensus.Types

/-!
# Certificate and block checks of `consensus-types`

The stateless checks SafetyRules runs on what it is asked to sign: the
well-formedness of a vote's data, the signatures of a quorum certificate (with
the unsigned genesis certificate as its one exception), the 2-chain timeout
certificate's consistency between its timeout and its signers' rounds, and the
proposer's signature and well-formedness of a block. An `anyhow` error is its
message; `ensure!(c, msg)` is `ensure c msg`.

`Block::verify_well_formed` reads the wall clock; here the reading is an
argument, so a theorem about it holds at every time.
-/

set_option autoImplicit false

namespace Dijets.Consensus

/-- `anyhow::ensure!`. -/
def ensure (c : Bool) (msg : String) : Except String Unit :=
  if c then pure () else throw msg

@[simp] theorem ensure_eq_ok (c : Bool) (msg : String) :
    ensure c msg = .ok () ↔ c = true := by
  cases c <;> simp [ensure, pure, throw, Except.pure, throwThe, MonadExceptOf.throw]

variable (env : Env)

/-- `VoteData::verify`: the parent is an earlier block of the same epoch. -/
def VoteData.verify (d : VoteData) : Except String Unit := do
  ensure (d.parent.epoch == d.proposed.epoch) "Parent and proposed epochs do not match"
  ensure (decide (d.parent.round < d.proposed.round)) "Proposed round is less than parent round"
  ensure (decide (d.parent.timestampUsecs ≤ d.proposed.timestampUsecs))
    "Proposed happened before parent"
  ensure (d.proposed.version == 0 || decide (d.parent.version ≤ d.proposed.version))
    "Proposed version is less than parent version"

/-- `QuorumCert::verify`. A certificate for round 0 is a genesis certificate and
carries no signatures; any other must be signed by the validator set. -/
def QuorumCert.verify (qc : QuorumCert) (validator : ValidatorVerifier) :
    Except String Unit := do
  let voteHash := env.hashVoteData qc.voteData
  ensure (qc.ledgerInfo.ledgerInfo.consensusDataHash == voteHash)
    "Quorum Cert's hash mismatch LedgerInfo"
  if qc.certifiedBlock.round == 0 then
    ensure (qc.parentBlock == qc.certifiedBlock)
      "Genesis QC has inconsistent parent block with certified block"
    ensure (qc.certifiedBlock == qc.ledgerInfo.ledgerInfo.commitInfo)
      "Genesis QC has inconsistent commit block with certified block"
    ensure qc.ledgerInfo.signatures.isEmpty "Genesis QC should not carry signatures"
  else
    match env.verifySignatures qc.ledgerInfo validator with
    | .error _ => throw "Fail to verify QuorumCert"
    | .ok () => qc.voteData.verify

/-- The loop of `TwoChainTimeoutCertificate::verify`: check each signer's
signature on its own `TimeoutSigningRepr` and take the largest signed round. -/
def TwoChainTimeoutCertificate.verifySigners (validators : ValidatorVerifier)
    (epoch round : ℕ) : List (Author × ℕ × Ed25519Signature) → ℕ →
      Except String ℕ
  | [], signedRound => pure signedRound
  | (author, qcRound, signature) :: rest, signedRound =>
    match env.validatorVerify validators author
        (.timeoutSigningRepr { epoch := epoch, round := round, hqcRound := qcRound })
        signature with
    | .error _ => throw s!"Failed to verify {author}'s TimeoutSigningRepr"
    | .ok () => verifySigners validators epoch round rest (max signedRound qcRound)

/-- `TwoChainTimeoutCertificate::verify`: the timeout's own quorum certificate is
valid, the signers carry enough voting power, each signature is valid, and the
timeout's quorum certificate has the highest round any signer signed. -/
def TwoChainTimeoutCertificate.verify (tc : TwoChainTimeoutCertificate)
    (validators : ValidatorVerifier) : Except String Unit := do
  let hqcRound := tc.timeout.hqcRound
  ensure (decide (hqcRound < tc.timeout.round)) "Timeout round should be larger than the QC round"
  QuorumCert.verify env tc.timeout.quorumCert validators
  env.checkVotingPower validators (tc.signatures.map (·.1))
  let signedRound ← TwoChainTimeoutCertificate.verifySigners env validators tc.timeout.epoch
    tc.timeout.round tc.signatures 0
  ensure (hqcRound == signedRound)
    s!"Inconsistent hqc round, qc has round {hqcRound}, highest signed round {signedRound}"

/-- `Block::validate_signature`: genesis is never accepted from others; a
proposal carries its author's signature; both carry a valid certificate. -/
def Block.validateSignature (b : Block) (validator : ValidatorVerifier) :
    Except String Unit :=
  match b.blockData.blockType with
  | .genesis => throw "We should not accept genesis from others"
  | .nilBlock => QuorumCert.verify env b.quorumCert validator
  | .proposal _ author => do
    let some signature := b.signature | throw "Missing signature in Proposal"
    env.validatorVerify validator author (.blockData b.blockData) signature
    QuorumCert.verify env b.quorumCert validator

/-- The five-minute bound on how far a block's timestamp may run ahead of the clock. -/
def timeBound : ℕ := 300000000

/-- `Block::verify_well_formed`, at the clock reading `currentTs` (microseconds). -/
def Block.verifyWellFormed (b : Block) (currentTs : ℕ) : Except String Unit := do
  ensure (!b.blockData.isGenesisBlock) "We must not accept genesis from others"
  let parent := b.quorumCert.certifiedBlock
  ensure (decide (parent.round < b.round)) "Block must have a greater round than parent's block"
  ensure (parent.epoch == b.epoch) "block's parent should be in the same epoch"
  if env.hasReconfiguration parent then
    ensure (b.blockData.payload.all List.isEmpty) "Reconfiguration suffix should not carry payload"
  if b.blockData.isNilBlock || env.hasReconfiguration parent then
    ensure (b.timestampUsecs == parent.timestampUsecs)
      "Nil/reconfig suffix block must have same timestamp as parent"
  else
    ensure (decide (parent.timestampUsecs < b.timestampUsecs))
      "Blocks must have strictly increasing timestamps"
    ensure (decide (b.timestampUsecs ≤ min (currentTs + timeBound) u64Max))
      "Blocks must not be too far in the future"
  ensure (!env.endsEpoch b.quorumCert.ledgerInfo.ledgerInfo)
    "Block cannot be proposed in an epoch that has ended"

end Dijets.Consensus
