import Dijets.Consensus.SafetyRulesTwoChain

/-!
# Requests to SafetyRules

`SerializerService::handle_message` decodes a `SafetyRulesInput`, calls the
matching method of `TSafetyRules` and encodes its result. With the encoding left
out, that dispatch is the step function of SafetyRules as a machine:
`handleMessage` takes a request and the clock reading at which it is served,
and answers with the method's `Result`. Every claim about runs of SafetyRules,
in any order and with any inputs, is a claim about the runs of this machine.
-/

set_option autoImplicit false

namespace Dijets.Consensus

/-- `SafetyRulesInput`, one constructor per method of `TSafetyRules`. -/
inductive SafetyRulesInput where
  | consensusState
  | init (proof : EpochChangeProof)
  | constructAndSignVote (proposal : MaybeSignedVoteProposal)
  | signProposal (blockData : BlockData)
  | signTimeout (timeout : Timeout)
  | signTimeoutWithQc (timeout : TwoChainTimeout) (tc : Option TwoChainTimeoutCertificate)
  | constructAndSignVoteTwoChain (proposal : MaybeSignedVoteProposal)
      (tc : Option TwoChainTimeoutCertificate)
  | signCommitVote (ledgerInfo : LedgerInfoWithSignatures) (newLedgerInfo : LedgerInfo)

/-- The result a request is answered with. -/
inductive SafetyRulesOutput where
  | consensusState (r : Except Error ConsensusState)
  | init (r : Except Error Unit)
  | vote (r : Except Error Vote)
  | signature (r : Except Error Ed25519Signature)

namespace SafetyRules

variable {σ : Type} (st : Storage σ) (env : Env)

/-- Answer with the outcome of `m`, keeping the state it leaves, success or not. -/
def answer {α : Type} (m : EStateM Error (SafetyRules σ) α) (wrap : Except Error α → SafetyRulesOutput)
    (s : SafetyRules σ) : SafetyRules σ × SafetyRulesOutput :=
  match m s with
  | .ok a s' => (s', wrap (.ok a))
  | .error e s' => (s', wrap (.error e))

/-- The dispatch of `SerializerService::handle_message`, at clock reading `now`. -/
def handleMessage (s : SafetyRules σ) : SafetyRulesInput × ℕ → SafetyRules σ × SafetyRulesOutput
  | (.consensusState, _) => answer (guardedConsensusState st) .consensusState s
  | (.init proof, _) => answer (guardedInitialize st env proof) .init s
  | (.constructAndSignVote proposal, now) =>
    answer (guardedConstructAndSignVote st env proposal now) .vote s
  | (.signProposal blockData, _) => answer (guardedSignProposal st env blockData) .signature s
  | (.signTimeout timeout, _) => answer (guardedSignTimeout st env timeout) .signature s
  | (.signTimeoutWithQc timeout tc, _) =>
    answer (guardedSignTimeoutWithQc st env timeout tc) .signature s
  | (.constructAndSignVoteTwoChain proposal tc, now) =>
    answer (guardedConstructAndSignVoteTwoChain st env proposal tc now) .vote s
  | (.signCommitVote ledgerInfo newLedgerInfo, _) =>
    answer (guardedSignCommitVote st env ledgerInfo newLedgerInfo) .signature s

end SafetyRules

end Dijets.Consensus
