import Dijets.Consensus.SafetyRules

/-!
# The 2-chain rules of SafetyRules

`safety_rules_2chain.rs` adds the rules of the 2-chain protocol to the same
`SafetyRules` and the same `SafetyData`: a timeout carries the validator's
highest quorum certificate and may come with a timeout certificate for the round
before, a vote may be justified either by a certificate for the previous round
or by such a timeout certificate, and a block commits its parent as soon as the
two rounds are consecutive. Votes and timeouts share `last_voted_round`, and the
one-chain round recorded by votes bounds the timeouts that may follow.
-/

set_option autoImplicit false

namespace Dijets.Consensus

namespace SafetyRules

variable {σ : Type} (st : Storage σ) (env : Env)

/-- `verify_tc`: the timeout certificate is valid for the current validators. -/
def verifyTc (tc : TwoChainTimeoutCertificate) : EStateM Error (SafetyRules σ) Unit := do
  let epochState ← getEpochState
  match tc.verify env epochState.verifier with
  | .ok () => pure ()
  | .error e => throw (.invalidTimeoutCertificate e)

/-- Core safety timeout rule: the timeout's round follows its quorum certificate's
or the timeout certificate's, and its quorum certificate is not older than the
one-chain round. -/
def safeToTimeout (timeout : TwoChainTimeout) (maybeTc : Option TwoChainTimeoutCertificate)
    (safetyData : SafetyData) : Except Error Unit := do
  let round := timeout.round
  let qcRound := timeout.hqcRound
  let tcRound := maybeTc.elim 0 (·.round)
  -- `||` short-circuits: the timeout certificate's `next_round` runs only when needed
  let viaQc := round == (← nextRound qcRound)
  let follows ← if viaQc then pure true else do pure (round == (← nextRound tcRound))
  if follows && decide (qcRound ≥ safetyData.oneChainRound) then
    pure ()
  else throw (.notSafeToTimeout round qcRound tcRound safetyData.oneChainRound)

/-- Core safety voting rule: the block's round follows its quorum certificate's,
or it follows the timeout certificate's round and its certificate is not older
than the highest one the timeout certificate reports. -/
def safeToVote (block : Block) (maybeTc : Option TwoChainTimeoutCertificate) :
    Except Error Unit := do
  let round := block.round
  let qcRound := block.quorumCert.certifiedBlock.round
  let tcRound := maybeTc.elim 0 (·.round)
  let hqcRound := maybeTc.elim 0 (·.highestHqcRound)
  -- `||` short-circuits: the timeout certificate's `next_round` runs only when needed
  let viaQc := round == (← nextRound qcRound)
  let ok ← if viaQc then pure true else do
    pure (round == (← nextRound tcRound) && decide (qcRound ≥ hqcRound))
  if ok then pure () else throw (.notSafeToVote round qcRound tcRound hqcRound)

/-- `construct_ledger_info_2chain`: commit the parent of the proposed block when
the two rounds are consecutive, otherwise commit nothing. -/
def constructLedgerInfo2chain (proposedBlock : Block) (consensusDataHash : HashValue) :
    Except Error LedgerInfo := do
  let block1 := proposedBlock.round
  let block0 := proposedBlock.quorumCert.certifiedBlock.round
  let commit := (← nextRound block0) == block1
  let commitInfo := if commit then proposedBlock.quorumCert.certifiedBlock else env.emptyBlockInfo
  pure { commitInfo := commitInfo, consensusDataHash := consensusDataHash }

/-- `guarded_sign_timeout_with_qc`: a 2-chain timeout that satisfies the timeout
rule and is not below the last voted round; a higher round is persisted as the
last voted round before signing. -/
def guardedSignTimeoutWithQc (timeout : TwoChainTimeout)
    (timeoutCert : Option TwoChainTimeoutCertificate) :
    EStateM Error (SafetyRules σ) Ed25519Signature := do
  let _ ← signer
  let safetyData ← storage (PersistentSafetyStorage.safetyData st)
  ofExcept (verifyEpoch timeout.epoch safetyData)
  verifyQc env timeout.quorumCert
  if let some tc := timeoutCert then
    verifyTc env tc
  ofExcept (safeToTimeout timeout timeoutCert safetyData)
  if timeout.round < safetyData.lastVotedRound then
    throw (.incorrectLastVotedRound timeout.round safetyData.lastVotedRound)
  if timeout.round > safetyData.lastVotedRound then
    let safetyData ← ofExcept (verifyAndUpdateLastVoteRound timeout.round safetyData)
    storage (PersistentSafetyStorage.setSafetyData st safetyData)
  sign st env (.timeoutSigningRepr timeout.signingFormat)

/-- `guarded_construct_and_sign_vote_two_chain`: the 2-chain vote. A proposal for
the round of the last vote gets that vote back; otherwise the round must be above
the last voted round and safe to vote, the one-chain data is recorded, and the
updated safety data with the new vote is persisted before the vote is returned. -/
def guardedConstructAndSignVoteTwoChain (maybeSigned : MaybeSignedVoteProposal)
    (timeoutCert : Option TwoChainTimeoutCertificate) (now : ℕ) :
    EStateM Error (SafetyRules σ) Vote := do
  let _ ← signer
  let voteData ← verifyProposal st env maybeSigned now
  if let some tc := timeoutCert then
    verifyTc env tc
  let proposedBlock := maybeSigned.voteProposal.block
  let safetyData ← storage (PersistentSafetyStorage.safetyData st)
  if let some vote := safetyData.lastVote then
    if vote.voteData.proposed.round == proposedBlock.round then
      return vote
  let safetyData ← ofExcept (verifyAndUpdateLastVoteRound proposedBlock.blockData.round safetyData)
  ofExcept (safeToVote proposedBlock timeoutCert)
  let (safetyData, _) := observeQc proposedBlock.quorumCert safetyData
  let author := (← signer).author
  let ledgerInfo ← ofExcept (constructLedgerInfo2chain env proposedBlock (env.hashVoteData voteData))
  let signature ← sign st env (.ledgerInfo ledgerInfo)
  let vote := Vote.newWithSignature voteData author ledgerInfo signature
  storage (PersistentSafetyStorage.setSafetyData st { safetyData with lastVote := some vote })
  pure vote

end SafetyRules

end Dijets.Consensus
