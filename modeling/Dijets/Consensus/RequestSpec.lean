import Mathlib
import Dijets.Consensus.StorageSpec
import Dijets.Consensus.SafetyRulesInput
import Dijets.Consensus.VerifySpec

/-!
# What each request of SafetyRules does to its safety data

One triple per `guarded_*` method, assembled by `mvcgen` from the triples of the
calls it makes. Each is stated from the ghost state `s₀` the request starts in,
and each says, from a coherent `s₀`, what the request may have done to the
stored safety data, whether it succeeded or not:

* `consensus_state`, `sign_proposal` and `sign_commit_vote` leave it alone
  (`Keeps`);
* the two timeouts and the two votes may move it forward within its epoch
  (`Advances`), and a vote they return is either the last vote, returned again
  with nothing written, or a fresh vote for a round above the last voted round,
  now recorded as the last vote (`VoteOutcome`);
* `initialize` may reset it to a strictly newer epoch (`Resets`).

The cache stays coherent throughout. These are the only facts about single
requests that the safety of whole runs, in `Dijets.Consensus.Safety`, uses.
-/

set_option autoImplicit false
set_option mvcgen.warning false

namespace Dijets.Consensus

open Std.Do Dijets.Lib

namespace SafetyRules

variable {σ : Type} {env : Env} {view : σ → SafetyData}

/-! ## How stored data may change -/

/-- What a request other than `initialize` may do to the stored data: keep the
epoch, lower no round, and replace the last vote only by one for the new last
voted round, above the old one. -/
def Advances (d d' : SafetyData) : Prop :=
  d'.epoch = d.epoch ∧ d.lastVotedRound ≤ d'.lastVotedRound ∧
    d.preferredRound ≤ d'.preferredRound ∧ d.oneChainRound ≤ d'.oneChainRound ∧
    (d'.lastVote = d.lastVote ∨
      ∃ v, d'.lastVote = some v ∧ v.epoch = d.epoch ∧ v.round = d'.lastVotedRound ∧
        d.lastVotedRound < v.round)

/-- What `initialize` may do instead: start a strictly newer epoch from round 0,
with no last vote. -/
def Resets (d d' : SafetyData) : Prop :=
  d.epoch < d'.epoch ∧
    d' = { epoch := d'.epoch, lastVotedRound := 0, preferredRound := 0,
           oneChainRound := 0, lastVote := none }

/-- A vote a request returns: the last vote again, with the stored data as it was,
or a fresh vote of the stored epoch, for the new last voted round, above the old
one, and recorded as the last vote. -/
def VoteOutcome (d d' : SafetyData) (v : Vote) : Prop :=
  (d' = d ∧ d.lastVote = some v) ∨
    (d'.lastVote = some v ∧ v.epoch = d.epoch ∧ v.round = d'.lastVotedRound ∧
      d.lastVotedRound < v.round)

/-- From a coherent `s₀`, `s` is coherent and holds `s₀`'s data. (A request is
specified with this and not with `Keeps`, which specifies calls: the two must
not unify, or `mvcgen` would read a call's ghost state off the request's
postcondition.) -/
def Unchanged (view : σ → SafetyData) (s₀ s : SafetyRules σ) : Prop :=
  Coherent view s₀ → Kept view (stored view s₀) s

/-- From a coherent `s₀`, `s` is coherent and its stored data advances `s₀`'s. -/
def Moves (view : σ → SafetyData) (s₀ s : SafetyRules σ) : Prop :=
  Coherent view s₀ → Coherent view s ∧ Advances (stored view s₀) (stored view s)

/-- From a coherent `s₀`, `s` is coherent and holds `s₀`'s data or a reset of it. -/
def Initialized (view : σ → SafetyData) (s₀ s : SafetyRules σ) : Prop :=
  Coherent view s₀ → Coherent view s ∧
    (stored view s = stored view s₀ ∨ Resets (stored view s₀) (stored view s))

/-- A request that returned `v` moved from `s₀` to `s` and `v` is a `VoteOutcome`. -/
def Voted (view : σ → SafetyData) (s₀ s : SafetyRules σ) (v : Vote) : Prop :=
  Moves view s₀ s ∧ (Coherent view s₀ → VoteOutcome (stored view s₀) (stored view s) v)

/-- What a timeout may do to the stored data: raise the last voted round and
nothing else. -/
def Raises (d d' : SafetyData) : Prop :=
  d' = d ∨ (d.lastVotedRound < d'.lastVotedRound ∧ d' = { d with lastVotedRound := d'.lastVotedRound })

/-- From a coherent `s₀`, `s` is coherent and its stored data raises `s₀`'s. -/
def TimedOut (view : σ → SafetyData) (s₀ s : SafetyRules σ) : Prop :=
  Coherent view s₀ → Coherent view s ∧ Raises (stored view s₀) (stored view s)

/-! ## What a signature rests on

A vote or a 2-chain timeout that a request returns was checked against the
stored data and the certificates it came with; the safety of a protocol run
needs those checks, not only what was persisted. -/

/-- The checks of `verify_proposal` that a fresh vote for the block `b` passed at
clock reading `now`: the vote is for `b`, over `b`'s certificate, which is valid,
and `b` is well formed. -/
structure ProposalChecked (env : Env) (now : ℕ) (b : Block) (v : Vote) : Prop where
  parent : v.voteData.parent = b.quorumCert.certifiedBlock
  round : v.round = b.round
  epoch : v.epoch = b.epoch
  qc_valid : b.quorumCert.Valid env
  wellFormed : b.verifyWellFormed env now = .ok ()

/-- A fresh 3-chain vote for `b`, moving the stored data from `d` to `d'`: its ledger
info follows the 3-chain rule, the second voting rule held, and the preferred round
observed `b`'s certificate. -/
structure Justified3 (env : Env) (now : ℕ) (b : Block) (d d' : SafetyData) (v : Vote) : Prop where
  checked : ProposalChecked env now b v
  ledgerInfo : constructLedgerInfo env b (env.hashVoteData v.voteData) = .ok v.ledgerInfo
  preferred_le : d.preferredRound ≤ b.quorumCert.certifiedBlock.round
  preferredRound_eq : d'.preferredRound = max d.preferredRound b.quorumCert.parentBlock.round

/-- A vote a 3-chain request returns: the last vote again, with nothing written, or a
fresh vote justified by the proposal's block. -/
def VoteOutcome3 (env : Env) (now : ℕ) (b : Block) (d d' : SafetyData) (v : Vote) : Prop :=
  (d' = d ∧ d.lastVote = some v) ∨ Justified3 env now b d d' v

/-- A fresh 2-chain vote for `b` with the timeout certificate `tc`: its ledger info
follows the 2-chain rule, the 2-chain voting rule held with a valid certificate, and
the one-chain round observed `b`'s certificate. -/
structure Justified2 (env : Env) (now : ℕ) (b : Block) (tc : Option TwoChainTimeoutCertificate)
    (d d' : SafetyData) (v : Vote) : Prop where
  checked : ProposalChecked env now b v
  ledgerInfo : constructLedgerInfo2chain env b (env.hashVoteData v.voteData) = .ok v.ledgerInfo
  safe : safeToVote b tc = .ok ()
  tc_valid : ∀ c, tc = some c → c.Valid env
  oneChainRound_eq : d'.oneChainRound = max d.oneChainRound b.quorumCert.certifiedBlock.round

/-- A vote a 2-chain request returns: the last vote again, with nothing written, or a
fresh vote justified by the proposal's block and timeout certificate. -/
def VoteOutcome2 (env : Env) (now : ℕ) (b : Block) (tc : Option TwoChainTimeoutCertificate)
    (d d' : SafetyData) (v : Vote) : Prop :=
  (d' = d ∧ d.lastVote = some v) ∨ Justified2 env now b tc d d' v

/-- A signed 2-chain timeout, moving the stored data from `d` to `d'`: of the stored
epoch, safe to time out, not below the last voted round, which is now at least its
round, with valid certificates. -/
structure TimeoutJustified (env : Env) (t : TwoChainTimeout) (tc : Option TwoChainTimeoutCertificate)
    (d d' : SafetyData) : Prop where
  epoch : t.epoch = d.epoch
  safe : safeToTimeout t tc d = .ok ()
  le_round : d.lastVotedRound ≤ t.round
  round_le : t.round ≤ d'.lastVotedRound
  qc_valid : t.quorumCert.Valid env
  tc_valid : ∀ c, tc = some c → c.Valid env

theorem Advances.refl (d : SafetyData) : Advances d d := by
  simp [Advances]

theorem Raises.advances {d d' : SafetyData} (h : Raises d d') : Advances d d' := by
  rcases h with rfl | ⟨hlt, heq⟩
  · exact Advances.refl _
  · rw [heq]
    exact ⟨rfl, Nat.le_of_lt hlt, Nat.le_refl _, Nat.le_refl _, Or.inl rfl⟩

theorem Raises.preferredRound {d d' : SafetyData} (h : Raises d d') :
    d'.preferredRound = d.preferredRound := by
  rcases h with rfl | ⟨-, heq⟩
  · rfl
  · rw [heq]

theorem Raises.lastVote {d d' : SafetyData} (h : Raises d d') : d'.lastVote = d.lastVote := by
  rcases h with rfl | ⟨-, heq⟩
  · rfl
  · rw [heq]

theorem TimedOut.moves {s₀ s : SafetyRules σ} (h : TimedOut view s₀ s) : Moves view s₀ s :=
  fun hc => ⟨(h hc).1, (h hc).2.advances⟩

theorem Unchanged.timedOut {s₀ s : SafetyRules σ} (h : Unchanged view s₀ s) : TimedOut view s₀ s :=
  fun hc => ⟨(h hc).1, Or.inl (h hc).2⟩

/-- A timeout raises the last voted round. -/
theorem raises_lastVotedRound {d : SafetyData} {round : ℕ} (h : d.lastVotedRound < round) :
    Raises d { d with lastVotedRound := round } :=
  Or.inr ⟨h, rfl⟩

theorem Unchanged.moves {s₀ s : SafetyRules σ} (h : Unchanged view s₀ s) : Moves view s₀ s :=
  fun hc => ⟨(h hc).1, (h hc).2 ▸ Advances.refl _⟩

/-- The data a 3-chain vote persists: both voting rules passed, the certificate's
rounds observed, the block's round the last voted round and the vote the last
vote. -/
theorem voteData_advances {d a₁ : SafetyData} {a : SafetyData × Bool} {qc : QuorumCert}
    {round : ℕ} {v : Vote} (h₁ : verifyAndUpdatePreferredRound qc d = .ok a)
    (h₂ : verifyAndUpdateLastVoteRound round a.1 = .ok a₁) (he : v.epoch = d.epoch)
    (hr : v.round = round) :
    Advances d { a₁ with lastVote := some v } ∧ VoteOutcome d { a₁ with lastVote := some v } v := by
  obtain ⟨-, rfl⟩ := Iff.mp verifyAndUpdatePreferredRound_eq_ok h₁
  obtain ⟨hlt, rfl⟩ := Iff.mp verifyAndUpdateLastVoteRound_eq_ok h₂
  have hlt' : d.lastVotedRound < v.round := by simpa [hr] using hlt
  refine ⟨⟨observeQc_epoch qc d, by simpa using Nat.le_of_lt hlt,
    le_observeQc_preferredRound qc d, le_observeQc_oneChainRound qc d,
    Or.inr ⟨v, rfl, he, hr, hlt'⟩⟩, Or.inr ⟨rfl, he, hr, hlt'⟩⟩

/-- The data a 2-chain vote persists: the first voting rule passed, the block's
round the last voted round, the certificate's rounds observed and the vote the
last vote. -/
theorem voteData_advancesTwoChain {d a₁ : SafetyData} {qc : QuorumCert} {round : ℕ} {v : Vote}
    (h : verifyAndUpdateLastVoteRound round d = .ok a₁) (he : v.epoch = d.epoch)
    (hr : v.round = round) :
    Advances d { (observeQc qc a₁).1 with lastVote := some v } ∧
      VoteOutcome d { (observeQc qc a₁).1 with lastVote := some v } v := by
  obtain ⟨hlt, rfl⟩ := Iff.mp verifyAndUpdateLastVoteRound_eq_ok h
  have hlt' : d.lastVotedRound < v.round := by simpa [hr] using hlt
  have hp := le_observeQc_preferredRound qc { d with lastVotedRound := round }
  have ho := le_observeQc_oneChainRound qc { d with lastVotedRound := round }
  have hl : (observeQc qc { d with lastVotedRound := round }).1.lastVotedRound = v.round := by
    simp [hr]
  refine ⟨⟨observeQc_epoch qc _, by simpa using Nat.le_of_lt hlt, hp, ho,
    Or.inr ⟨v, rfl, he, hl.symm, hlt'⟩⟩, Or.inr ⟨rfl, he, hl.symm, hlt'⟩⟩

/-- A fresh 3-chain vote for a block whose checks passed is justified by it. -/
theorem voteData_justified3 {d a₁ : SafetyData} {a : SafetyData × Bool} {b : Block} {now : ℕ}
    {vd : VoteData} {author : Author} {li : LedgerInfo} {signature : Ed25519Signature}
    (hparent : vd.parent = b.quorumCert.certifiedBlock) (hround : vd.proposed.round = b.round)
    (hepoch : vd.proposed.epoch = b.epoch) (hqc : b.quorumCert.Valid env)
    (hwf : b.verifyWellFormed env now = .ok ())
    (h₁ : verifyAndUpdatePreferredRound b.quorumCert d = .ok a)
    (h₂ : verifyAndUpdateLastVoteRound b.blockData.round a.1 = .ok a₁)
    (hli : constructLedgerInfo env b (env.hashVoteData vd) = .ok li) :
    Justified3 env now b d { a₁ with lastVote := some (Vote.newWithSignature vd author li signature) }
      (Vote.newWithSignature vd author li signature) := by
  obtain ⟨hpref, rfl⟩ := Iff.mp verifyAndUpdatePreferredRound_eq_ok h₁
  obtain ⟨-, rfl⟩ := Iff.mp verifyAndUpdateLastVoteRound_eq_ok h₂
  exact ⟨⟨hparent, hround, hepoch, hqc, hwf⟩, hli, hpref, by simp⟩

/-- A fresh 2-chain vote for a block whose checks passed is justified by it and
its timeout certificate. -/
theorem voteData_justified2 {d a₁ : SafetyData} {b : Block} {tc : Option TwoChainTimeoutCertificate}
    {now : ℕ} {vd : VoteData} {author : Author} {li : LedgerInfo} {signature : Ed25519Signature}
    (hparent : vd.parent = b.quorumCert.certifiedBlock) (hround : vd.proposed.round = b.round)
    (hepoch : vd.proposed.epoch = b.epoch) (hqc : b.quorumCert.Valid env)
    (hwf : b.verifyWellFormed env now = .ok ()) (htc : ∀ c, tc = some c → c.Valid env)
    (h : verifyAndUpdateLastVoteRound b.blockData.round d = .ok a₁)
    (hsafe : safeToVote b tc = .ok ())
    (hli : constructLedgerInfo2chain env b (env.hashVoteData vd) = .ok li) :
    Justified2 env now b tc d
      { (observeQc b.quorumCert a₁).1 with lastVote := some (Vote.newWithSignature vd author li signature) }
      (Vote.newWithSignature vd author li signature) := by
  obtain ⟨-, rfl⟩ := Iff.mp verifyAndUpdateLastVoteRound_eq_ok h
  exact ⟨⟨hparent, hround, hepoch, hqc, hwf⟩, hli, hsafe, htc, by simp⟩

/-! ## Calls that only read the state -/

@[spec] theorem signer_spec (s₀ : SafetyRules σ) :
    ⦃fun s => ⌜s = s₀⌝⦄ (signer : EStateM Error (SafetyRules σ) ConfigurableValidatorSigner)
    ⦃post⟨fun _ s => ⌜s = s₀⌝, fun _ s => ⌜s = s₀⌝⟩⦄ := by
  mvcgen [signer]

@[spec] theorem getEpochState_spec (s₀ : SafetyRules σ) :
    ⦃fun s => ⌜s = s₀⌝⦄ (getEpochState : EStateM Error (SafetyRules σ) EpochState)
    ⦃post⟨fun _ s => ⌜s = s₀⌝, fun _ s => ⌜s = s₀⌝⟩⦄ := by
  mvcgen [getEpochState]

/-- `verify_qc` changes nothing, and succeeds only on a valid certificate. -/
@[spec] theorem verifyQc_spec (qc : QuorumCert) (s₀ : SafetyRules σ) :
    ⦃fun s => ⌜s = s₀⌝⦄ (verifyQc env qc : EStateM Error (SafetyRules σ) Unit)
    ⦃post⟨fun _ s => ⌜s = s₀ ∧ qc.Valid env⌝, fun _ s => ⌜s = s₀⌝⟩⦄ := by
  mvcgen [verifyQc] with grind [QuorumCert.Valid]

/-- `verify_tc` changes nothing, and succeeds only on a valid certificate. -/
@[spec] theorem verifyTc_spec (tc : TwoChainTimeoutCertificate) (s₀ : SafetyRules σ) :
    ⦃fun s => ⌜s = s₀⌝⦄ (verifyTc env tc : EStateM Error (SafetyRules σ) Unit)
    ⦃post⟨fun _ s => ⌜s = s₀ ∧ tc.Valid env⌝, fun _ s => ⌜s = s₀⌝⟩⦄ := by
  mvcgen [verifyTc] with grind [TwoChainTimeoutCertificate.Valid]

@[spec] theorem verifyAuthor_spec (author : Option Author) (s₀ : SafetyRules σ) :
    ⦃fun s => ⌜s = s₀⌝⦄ (verifyAuthor author : EStateM Error (SafetyRules σ) Unit)
    ⦃post⟨fun _ s => ⌜s = s₀⌝, fun _ s => ⌜s = s₀⌝⟩⦄ := by
  mvcgen [verifyAuthor] with grind

variable (L : LawfulStorage σ)

@[spec] theorem sign_spec (m : SigningMessage) (s₀ : SafetyRules σ) :
    ⦃fun s => ⌜s = s₀⌝⦄ sign L.backend env m
    ⦃post⟨fun _ s => ⌜Keeps L.view s₀ s⌝, fun _ s => ⌜Keeps L.view s₀ s⌝⟩⦄ := by
  mvcgen [sign] with grind [Keeps]

/-- `verify_proposal` keeps the stored data; the vote data it returns proposes the
block, which from a coherent state is of the stored epoch, over the block's
certificate, which is valid, and the block is well formed. -/
@[spec] theorem verifyProposal_spec (maybeSigned : MaybeSignedVoteProposal) (now : ℕ)
    (s₀ : SafetyRules σ) :
    ⦃fun s => ⌜s = s₀⌝⦄ verifyProposal L.backend env maybeSigned now
    ⦃post⟨fun vd s => ⌜Keeps L.view s₀ s ∧
        vd.proposed.epoch = maybeSigned.voteProposal.block.epoch ∧
        vd.proposed.round = maybeSigned.voteProposal.block.round ∧
        (Coherent L.view s₀ → maybeSigned.voteProposal.block.epoch = (stored L.view s₀).epoch) ∧
        vd.parent = maybeSigned.voteProposal.block.quorumCert.certifiedBlock ∧
        maybeSigned.voteProposal.block.quorumCert.Valid env ∧
        maybeSigned.voteProposal.block.verifyWellFormed env now = .ok ()⌝,
      fun _ s => ⌜Keeps L.view s₀ s⌝⟩⦄ := by
  mvcgen [verifyProposal, ofExcept] with
    grind [Keeps, verifyEpoch_eq_ok, extensionCheck_proposed]

/-! ## The requests -/

theorem guardedConsensusState_spec (s₀ : SafetyRules σ) :
    ⦃fun s => ⌜s = s₀⌝⦄ guardedConsensusState L.backend
    ⦃post⟨fun _ s => ⌜Unchanged L.view s₀ s⌝, fun _ s => ⌜Unchanged L.view s₀ s⌝⟩⦄ := by
  mvcgen [guardedConsensusState] with grind [Unchanged, Keeps, Kept]

theorem guardedSignProposal_spec (blockData : BlockData) (s₀ : SafetyRules σ) :
    ⦃fun s => ⌜s = s₀⌝⦄ guardedSignProposal L.backend env blockData
    ⦃post⟨fun _ s => ⌜Unchanged L.view s₀ s⌝, fun _ s => ⌜Unchanged L.view s₀ s⌝⟩⦄ := by
  mvcgen [guardedSignProposal, ofExcept] with grind [Unchanged, Keeps, Kept]

theorem guardedSignCommitVote_spec (ledgerInfo : LedgerInfoWithSignatures)
    (newLedgerInfo : LedgerInfo) (s₀ : SafetyRules σ) :
    ⦃fun s => ⌜s = s₀⌝⦄ guardedSignCommitVote L.backend env ledgerInfo newLedgerInfo
    ⦃post⟨fun _ s => ⌜Unchanged L.view s₀ s⌝, fun _ s => ⌜Unchanged L.view s₀ s⌝⟩⦄ := by
  mvcgen [guardedSignCommitVote] with grind [Unchanged, Keeps, Kept]

/-- A 3-chain timeout raises the last voted round at most, whether it is signed or not. -/
theorem guardedSignTimeout_spec (timeout : Timeout) (s₀ : SafetyRules σ) :
    ⦃fun s => ⌜s = s₀⌝⦄ guardedSignTimeout L.backend env timeout
    ⦃post⟨fun _ s => ⌜TimedOut L.view s₀ s⌝, fun _ s => ⌜TimedOut L.view s₀ s⌝⟩⦄ := by
  mvcgen [guardedSignTimeout, ofExcept] with
    grind [TimedOut, Raises, Keeps, Kept, raises_lastVotedRound,
      verifyAndUpdateLastVoteRound_eq_ok]

/-- A 2-chain timeout raises the last voted round at most, and one that is signed
passed the timeout rule against the stored data. -/
theorem guardedSignTimeoutWithQc_spec (timeout : TwoChainTimeout)
    (tc : Option TwoChainTimeoutCertificate) (s₀ : SafetyRules σ) :
    ⦃fun s => ⌜s = s₀⌝⦄ guardedSignTimeoutWithQc L.backend env timeout tc
    ⦃post⟨fun _ s => ⌜TimedOut L.view s₀ s ∧
        (Coherent L.view s₀ → TimeoutJustified env timeout tc (stored L.view s₀) (stored L.view s))⌝,
      fun _ s => ⌜TimedOut L.view s₀ s⌝⟩⦄ := by
  mvcgen [guardedSignTimeoutWithQc, ofExcept] with
    grind [TimedOut, Raises, Keeps, Kept, raises_lastVotedRound, TimeoutJustified.mk,
      verifyAndUpdateLastVoteRound_eq_ok, verifyEpoch_eq_ok]

/-- A 3-chain vote: the last vote again, or a fresh vote after both voting rules,
persisted with the new rounds before it is returned. -/
theorem guardedConstructAndSignVote_spec (maybeSigned : MaybeSignedVoteProposal) (now : ℕ)
    (s₀ : SafetyRules σ) :
    ⦃fun s => ⌜s = s₀⌝⦄ guardedConstructAndSignVote L.backend env maybeSigned now
    ⦃post⟨fun v s => ⌜Voted L.view s₀ s v ∧ (Coherent L.view s₀ →
        VoteOutcome3 env now maybeSigned.voteProposal.block (stored L.view s₀) (stored L.view s) v)⌝,
      fun _ s => ⌜Unchanged L.view s₀ s⌝⟩⦄ := by
  mvcgen [guardedConstructAndSignVote, ofExcept] with
    grind [Voted, VoteOutcome, VoteOutcome3, Moves, Unchanged, Keeps, Kept, Advances, Block.round,
      voteData_advances, voteData_justified3]

/-- A 2-chain vote: the last vote again, or a fresh vote after the 2-chain voting
rule, persisted with the new rounds before it is returned. -/
theorem guardedConstructAndSignVoteTwoChain_spec (maybeSigned : MaybeSignedVoteProposal)
    (tc : Option TwoChainTimeoutCertificate) (now : ℕ) (s₀ : SafetyRules σ) :
    ⦃fun s => ⌜s = s₀⌝⦄ guardedConstructAndSignVoteTwoChain L.backend env maybeSigned tc now
    ⦃post⟨fun v s => ⌜Voted L.view s₀ s v ∧ (Coherent L.view s₀ →
        VoteOutcome2 env now maybeSigned.voteProposal.block tc (stored L.view s₀) (stored L.view s) v)⌝,
      fun _ s => ⌜Unchanged L.view s₀ s⌝⟩⦄ := by
  mvcgen [guardedConstructAndSignVoteTwoChain, ofExcept] with
    grind [Voted, VoteOutcome, VoteOutcome2, Moves, Unchanged, Keeps, Kept, Advances, Block.round,
      voteData_advancesTwoChain, voteData_justified2]

/-! ## `initialize` -/

omit L in
/-- `attempt m` ends where `m` ends, having turned its error into a value. -/
theorem attempt_triple {α : Type} {m : EStateM Error (SafetyRules σ) α}
    {P R : SafetyRules σ → Prop}
    (h : ⦃fun s => ⌜P s⌝⦄ m ⦃post⟨fun _ s => ⌜R s⌝, fun _ s => ⌜R s⌝⟩⦄) :
    ⦃fun s => ⌜P s⌝⦄ attempt m ⦃post⟨fun _ s => ⌜R s⌝, fun _ s => ⌜R s⌝⟩⦄ := by
  rw [triple_iff] at h ⊢
  intro s hs
  have hm := h s hs
  simp only [EStateM.run] at hm ⊢
  simp only [attempt]
  rcases hr : m s with ⟨a, s'⟩ | ⟨e, s'⟩ <;> rw [hr] at hm <;> exact hm

@[spec] theorem attempt_consensusKeyForVersion_spec (k : Ed25519PublicKey) (s₀ : SafetyRules σ) :
    ⦃fun s => ⌜s = s₀⌝⦄ attempt (storage (PersistentSafetyStorage.consensusKeyForVersion L.backend k))
    ⦃post⟨fun _ s => ⌜Keeps L.view s₀ s⌝, fun _ s => ⌜Keeps L.view s₀ s⌝⟩⦄ :=
  attempt_triple (consensusKeyForVersion_spec L k s₀)

@[spec] theorem attempt_sign_spec (m : SigningMessage) (s₀ : SafetyRules σ) :
    ⦃fun s => ⌜s = s₀⌝⦄ attempt (sign L.backend env m)
    ⦃post⟨fun _ s => ⌜Keeps L.view s₀ s⌝, fun _ s => ⌜Keeps L.view s₀ s⌝⟩⦄ :=
  attempt_triple (sign_spec L m s₀)

/-- Reconciling the key touches the signer only. -/
theorem reconcileKey_spec (author : Author) (expectedKey : Option Ed25519PublicKey)
    (s₀ : SafetyRules σ) :
    ⦃fun s => ⌜s = s₀⌝⦄ reconcileKey L.backend env author expectedKey
    ⦃post⟨fun _ s => ⌜Keeps L.view s₀ s⌝, fun _ s => ⌜Keeps L.view s₀ s⌝⟩⦄ := by
  mvcgen [reconcileKey] with grind [Keeps, Coherent, stored]

@[spec] theorem attempt_reconcileKey_spec (author : Author) (expectedKey : Option Ed25519PublicKey)
    (s₀ : SafetyRules σ) :
    ⦃fun s => ⌜s = s₀⌝⦄ attempt (reconcileKey L.backend env author expectedKey)
    ⦃post⟨fun _ s => ⌜Keeps L.view s₀ s⌝, fun _ s => ⌜Keeps L.view s₀ s⌝⟩⦄ :=
  attempt_triple (reconcileKey_spec L author expectedKey s₀)

/-- `initialize` leaves the stored data alone or resets it to a newer epoch. -/
theorem guardedInitialize_spec (proof : EpochChangeProof) (s₀ : SafetyRules σ) :
    ⦃fun s => ⌜s = s₀⌝⦄ guardedInitialize L.backend env proof
    ⦃post⟨fun _ s => ⌜Initialized L.view s₀ s⌝, fun _ s => ⌜Initialized L.view s₀ s⌝⟩⦄ := by
  mvcgen [guardedInitialize] with grind [Initialized, Resets, Keeps, Kept, Coherent, stored]

end SafetyRules

end Dijets.Consensus
