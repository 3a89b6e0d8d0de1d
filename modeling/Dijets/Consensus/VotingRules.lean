import Mathlib
import Dijets.Consensus.LockingTwoChain
import Dijets.Consensus.CommitSafety

/-!
# What one signature of SafetyRules rests on

The safety of the protocols rests on what each request checks before it signs
and on what it has persisted by the time it returns. This module states both for
single requests, from any state whose cache is coherent (so that the safety data
SafetyRules reads is the data the storage holds):

* `signatures_after_persist` — a returned vote is the persisted last vote and is
  not above the persisted last voted round, a signed timeout is not above it
  either, and a failed vote or proposal leaves the persisted data as it was. The
  vote part needs the stored last vote to be consistent with the stored rounds,
  as it is in every reachable state: the replay shortcut returns the stored last
  vote without comparing it with the last voted round
  (`replay_above_last_voted_round`).
* `three_chain_vote_rules` — a fresh 3-chain vote passed both voting rules,
  raised the preferred round as `observe_qc` does, and commits by the 3-chain rule.
* `two_chain_rules` — a fresh 2-chain vote passed `safe_to_vote` and commits by
  the 2-chain rule, a 2-chain timeout passed `safe_to_timeout`, and after a
  timeout for round `r` no request sequence leads to a fresh vote for round `r`.
-/

set_option autoImplicit false
set_option mvcgen.warning false

namespace Dijets.Consensus

open Std.Do Dijets.Lib

namespace SafetyRules

variable {σ : Type}

/-! ## The two commit rules, exactly -/

section CommitRules

variable {env : Env}

/-- The 3-chain ledger info commits the grandparent of the block exactly when the
three rounds are consecutive, and nothing otherwise. -/
theorem constructLedgerInfo_commitInfo {b : Block} {h : HashValue} {li : LedgerInfo}
    (hc : constructLedgerInfo env b h = .ok li) :
    li.commitInfo =
      if b.quorumCert.parentBlock.round + 1 = b.quorumCert.certifiedBlock.round ∧
          b.quorumCert.certifiedBlock.round + 1 = b.round then b.quorumCert.parentBlock
      else env.emptyBlockInfo := by
  unfold constructLedgerInfo at hc
  rcases h0 : nextRound b.quorumCert.parentBlock.round with _ | r0
  · simp [h0, bind, Except.bind] at hc
  obtain ⟨-, rfl⟩ := Iff.mp nextRound_eq_ok h0
  by_cases he0 : b.quorumCert.parentBlock.round + 1 = b.quorumCert.certifiedBlock.round
  · -- the second `next_round` runs only after the first equality held
    rcases h1 : nextRound b.quorumCert.certifiedBlock.round with _ | r1
    · simp [h0, h1, he0, bind, Except.bind] at hc
    obtain ⟨-, rfl⟩ := Iff.mp nextRound_eq_ok h1
    simp only [h0, h1, he0, bind, Except.bind, beq_iff_eq, pure, Except.pure, ↓reduceIte,
      Except.ok.injEq] at hc
    subst hc
    by_cases he1 : b.quorumCert.certifiedBlock.round + 1 = b.round <;> simp [he0, he1]
  · simp only [h0, he0, bind, Except.bind, beq_iff_eq, pure, Except.pure, ↓reduceIte,
      Bool.false_eq_true, Except.ok.injEq] at hc
    subst hc
    simp [he0]

/-- The 2-chain ledger info commits the parent of the block exactly when the two
rounds are consecutive, and nothing otherwise. -/
theorem constructLedgerInfo2chain_commitInfo {b : Block} {h : HashValue} {li : LedgerInfo}
    (hc : constructLedgerInfo2chain env b h = .ok li) :
    li.commitInfo =
      if b.quorumCert.certifiedBlock.round + 1 = b.round then b.quorumCert.certifiedBlock
      else env.emptyBlockInfo := by
  unfold constructLedgerInfo2chain at hc
  rcases h0 : nextRound b.quorumCert.certifiedBlock.round with _ | r0
  · simp [h0, bind, Except.bind] at hc
  obtain ⟨-, rfl⟩ := Iff.mp nextRound_eq_ok h0
  simp only [h0, bind, Except.bind, beq_iff_eq, pure, Except.pure, Except.ok.injEq] at hc
  subst hc
  rfl

/-- A returned vote is the last vote the data holds afterwards, and not above its
last voted round, if the data before was consistent. -/
theorem VoteOutcome.persisted {d d' : SafetyData} {v : Vote} (h : VoteOutcome d d' v)
    (hl : LastVoteConsistent d) : v.round ≤ d'.lastVotedRound ∧ d'.lastVote = some v := by
  rcases h with ⟨rfl, hv⟩ | ⟨hv, -, hvr, -⟩
  · exact ⟨(hl v hv).2, hv⟩
  · exact ⟨Nat.le_of_eq hvr, hv⟩

end CommitRules

/-! ## Two more facts the requests establish -/

variable (L : LawfulStorage σ) (env : Env)

/-- A signed 3-chain timeout is not above the last voted round it leaves. -/
theorem guardedSignTimeout_round_spec (timeout : Timeout) (s₀ : SafetyRules σ) :
    ⦃fun s => ⌜s = s₀⌝⦄ guardedSignTimeout L.backend env timeout
    ⦃post⟨fun _ s => ⌜Coherent L.view s₀ → timeout.round ≤ (stored L.view s).lastVotedRound⌝,
      fun _ _ => ⌜True⌝⟩⦄ := by
  mvcgen [guardedSignTimeout, ofExcept] with
    grind [Keeps, Kept, verifyAndUpdateLastVoteRound_eq_ok]

/-- A 2-chain vote, replayed or fresh, is for the round of the proposed block, and
the block is of the stored epoch. -/
theorem guardedConstructAndSignVoteTwoChain_block_spec (maybeSigned : MaybeSignedVoteProposal)
    (tc : Option TwoChainTimeoutCertificate) (now : ℕ) (s₀ : SafetyRules σ) :
    ⦃fun s => ⌜s = s₀⌝⦄ guardedConstructAndSignVoteTwoChain L.backend env maybeSigned tc now
    ⦃post⟨fun v _ => ⌜v.round = maybeSigned.voteProposal.block.round ∧
        (Coherent L.view s₀ → maybeSigned.voteProposal.block.epoch = (stored L.view s₀).epoch)⌝,
      fun _ _ => ⌜True⌝⟩⦄ := by
  mvcgen [guardedConstructAndSignVoteTwoChain, ofExcept] with
    grind [Keeps, Vote.round]

/-- A failed vote request leaves the stored data as it was. -/
theorem handleMessage_vote_error (s : SafetyRules σ) (i : SafetyRulesInput × ℕ) {e : Error}
    (he : (handleMessage L.backend env s i).2 = .vote (.error e)) (hc : Coherent L.view s) :
    stored L.view (handleMessage L.backend env s i).1 = stored L.view s := by
  obtain ⟨i, now⟩ := i
  have hinj : ∀ r r', SafetyRulesOutput.vote r = .vote r' → r = r' := fun _ _ h =>
    SafetyRulesOutput.vote.inj h
  cases i with
  | constructAndSignVote proposal =>
    exact ((answer_error_of_triple hinj (guardedConstructAndSignVote_spec L proposal now s) he) hc).2
  | constructAndSignVoteTwoChain proposal tc =>
    exact ((answer_error_of_triple hinj
      (guardedConstructAndSignVoteTwoChain_spec L proposal tc now s) he) hc).2
  | consensusState => exact absurd he (answer_ne_vote (by simp) _ _)
  | init proof => exact absurd he (answer_ne_vote (by simp) _ _)
  | signProposal blockData => exact absurd he (answer_ne_vote (by simp) _ _)
  | signTimeout timeout => exact absurd he (answer_ne_vote (by simp) _ _)
  | signTimeoutWithQc timeout tc => exact absurd he (answer_ne_vote (by simp) _ _)
  | signCommitVote ledgerInfo newLedgerInfo => exact absurd he (answer_ne_vote (by simp) _ _)

theorem signature_inj : ∀ r r', SafetyRulesOutput.signature r = .signature r' → r = r' :=
  fun _ _ h => SafetyRulesOutput.signature.inj h

/-! ## No signature before its rounds are persisted -/

/-- What the request `i` served from `s` has persisted when it answers: a returned
vote is the persisted last vote and not above the persisted last voted round, a
signed timeout of either protocol is not above the persisted last voted round,
and a failed vote or proposal leaves the persisted data as it was. -/
structure PersistsBeforeSigning (s : SafetyRules σ) (i : SafetyRulesInput × ℕ) : Prop where
  vote : ∀ v, (handleMessage L.backend env s i).2 = .vote (.ok v) →
    v.round ≤ (stored L.view (handleMessage L.backend env s i).1).lastVotedRound ∧
      (stored L.view (handleMessage L.backend env s i).1).lastVote = some v
  timeout : ∀ t sig, i.1 = .signTimeout t → (handleMessage L.backend env s i).2 = .signature (.ok sig) →
    t.round ≤ (stored L.view (handleMessage L.backend env s i).1).lastVotedRound
  timeoutWithQc : ∀ t tc sig, i.1 = .signTimeoutWithQc t tc →
    (handleMessage L.backend env s i).2 = .signature (.ok sig) →
    t.round ≤ (stored L.view (handleMessage L.backend env s i).1).lastVotedRound
  vote_error : ∀ e, (handleMessage L.backend env s i).2 = .vote (.error e) →
    stored L.view (handleMessage L.backend env s i).1 = stored L.view s
  proposal_error : ∀ b e, i.1 = .signProposal b → (handleMessage L.backend env s i).2 = .signature (.error e) →
    stored L.view (handleMessage L.backend env s i).1 = stored L.view s

/-- **Nothing is signed before it is persisted**, by every request from a state
whose cache is coherent and whose last vote is consistent with its rounds. -/
theorem signatures_after_persist (s : SafetyRules σ) (hs : Invariant L.view s)
    (i : SafetyRulesInput × ℕ) : PersistsBeforeSigning L env s i := by
  obtain ⟨i, now⟩ := i
  refine ⟨fun v hv => (handleMessage_vote L env s (i, now) hv hs.1).persisted hs.2, ?_, ?_,
    fun e he => handleMessage_vote_error L env s (i, now) he hs.1, ?_⟩
  · rintro t sig rfl hsig
    exact answer_ok_of_triple signature_inj (guardedSignTimeout_round_spec L env t s) hsig hs.1
  · rintro t tc sig rfl hsig
    exact ((answer_ok_of_triple signature_inj (guardedSignTimeoutWithQc_spec L t tc s) hsig).2
      hs.1).round_le
  · rintro b e rfl he
    exact ((answer_error_of_triple signature_inj (guardedSignProposal_spec L b s) he) hs.1).2

/-! ## The voting rules of the 3-chain protocol -/

/-- **The 3-chain voting rules.** From a state whose cache is coherent, holding the
safety data `D`, a vote for the block `B` that is not the replayed last vote is
for a round above `D`'s last voted round, over a certificate not older than `D`'s
preferred round; it leaves the preferred round that `observe_qc` computes, and
its ledger info commits `B`'s grandparent exactly when the three rounds are
consecutive. -/
theorem three_chain_vote_rules (s : SafetyRules σ) (hc : Coherent L.view s)
    (p : MaybeSignedVoteProposal) (now : ℕ) {v : Vote}
    (hv : (handleMessage L.backend env s (.constructAndSignVote p, now)).2 = .vote (.ok v))
    (hnew : (stored L.view s).lastVote ≠ some v) :
    let D := stored L.view s
    let D' := stored L.view (handleMessage L.backend env s (.constructAndSignVote p, now)).1
    let B := p.voteProposal.block
    D.lastVotedRound < B.round ∧ D.preferredRound ≤ B.quorumCert.certifiedBlock.round ∧
      D'.preferredRound = max D.preferredRound B.quorumCert.parentBlock.round ∧
      v.ledgerInfo.commitInfo =
        if B.quorumCert.parentBlock.round + 1 = B.quorumCert.certifiedBlock.round ∧
            B.quorumCert.certifiedBlock.round + 1 = B.round then B.quorumCert.parentBlock
        else env.emptyBlockInfo := by
  intro D D' B
  obtain ⟨⟨-, hout⟩, hout3⟩ := answer_vote_of_triple (guardedConstructAndSignVote_spec L p now s) hv
  -- a vote that is not the last vote again is fresh, and justified by `B`
  rcases hout3 hc with ⟨-, hlast⟩ | hj
  · exact absurd hlast hnew
  rcases hout hc with ⟨-, hlast⟩ | ⟨-, -, -, hlt⟩
  · exact absurd hlast hnew
  have hround : v.round = B.round := hj.checked.round
  exact ⟨hround ▸ hlt, hj.preferred_le, hj.preferredRound_eq,
    constructLedgerInfo_commitInfo hj.ledgerInfo⟩

/-! ## The rules of the 2-chain protocol -/

/-- A fresh 2-chain vote for `B` with the timeout certificate `tc` is for a round
above the last voted round, follows `B`'s certificate or a given `tc` whose
highest certificate is not newer than `B`'s, and commits `B`'s parent exactly
when the two rounds are consecutive. -/
theorem two_chain_vote_rules (s : SafetyRules σ) (hc : Coherent L.view s)
    (p : MaybeSignedVoteProposal) (tc : Option TwoChainTimeoutCertificate) (now : ℕ) {v : Vote}
    (hv : (handleMessage L.backend env s (.constructAndSignVoteTwoChain p tc, now)).2 = .vote (.ok v))
    (hnew : (stored L.view s).lastVote ≠ some v) :
    let B := p.voteProposal.block
    (stored L.view s).lastVotedRound < B.round ∧
      (B.round = B.quorumCert.certifiedBlock.round + 1 ∨
        ∃ c, tc = some c ∧ B.round = c.round + 1 ∧
          c.highestHqcRound ≤ B.quorumCert.certifiedBlock.round) ∧
      v.ledgerInfo.commitInfo =
        if B.quorumCert.certifiedBlock.round + 1 = B.round then B.quorumCert.certifiedBlock
        else env.emptyBlockInfo := by
  dsimp only
  obtain ⟨⟨-, hout⟩, hout2⟩ :=
    answer_vote_of_triple (guardedConstructAndSignVoteTwoChain_spec L p tc now s) hv
  rcases hout2 hc with ⟨-, hlast⟩ | hj
  · exact absurd hlast hnew
  rcases hout hc with ⟨-, hlast⟩ | ⟨-, -, -, hlt⟩
  · exact absurd hlast hnew
  have hround : v.round = p.voteProposal.block.round := hj.checked.round
  refine ⟨hround ▸ hlt, ?_, constructLedgerInfo2chain_commitInfo hj.ledgerInfo⟩
  rcases safeToVote_eq_ok hj.safe with hqc | ⟨htcr, hhqc⟩
  · exact Or.inl hqc
  · cases tc with
    | some c => exact Or.inr ⟨c, rfl, htcr, hhqc⟩
    | none =>
      -- without a certificate the rule admits round 1 only, which follows any
      -- certificate of a well-formed block
      obtain ⟨hlt', -⟩ := Block.verifyWellFormed_eq_ok hj.checked.wellFormed
      simp only [Option.elim] at htcr
      exact Or.inl (by omega)

/-- A signed 2-chain timeout is not below the last voted round, carries a
certificate not older than the one-chain round, and follows its certificate or
the timeout certificate (of round 0 when none is given). -/
theorem two_chain_timeout_rules (s : SafetyRules σ) (hc : Coherent L.view s) (t : TwoChainTimeout)
    (tc : Option TwoChainTimeoutCertificate) (now : ℕ) {sig : Ed25519Signature}
    (hsig : (handleMessage L.backend env s (.signTimeoutWithQc t tc, now)).2 = .signature (.ok sig)) :
    (stored L.view s).lastVotedRound ≤ t.round ∧ (stored L.view s).oneChainRound ≤ t.hqcRound ∧
      (t.round = t.hqcRound + 1 ∨ t.round = tc.elim 0 (·.round) + 1) := by
  have hj := (answer_ok_of_triple signature_inj (guardedSignTimeoutWithQc_spec L t tc s) hsig).2 hc
  obtain ⟨hfollows, hone⟩ := safeToTimeout_eq_ok hj.safe
  exact ⟨hj.le_round, hone, hfollows⟩

/-- What the stored data `d` keeps of a timeout for round `r` of epoch `e` signed
from data whose last vote was `last`: in epoch `e`, the last voted round is at
least `r`, and a last vote not above `r` is `last`. -/
def AfterTimeout (e r : ℕ) (last : Option Vote) (d : SafetyData) : Prop :=
  e ≤ d.epoch ∧
    (e = d.epoch → r ≤ d.lastVotedRound ∧ ∀ w, d.lastVote = some w → w.round ≤ r → last = some w)

/-- What a timeout leaves is kept by every later request: a fresh last vote is
above the last voted round, so above the timeout's round. -/
theorem AfterTimeout.step {e r : ℕ} {last : Option Vote} {d d' : SafetyData}
    (h : AfterTimeout e r last d) (hd : Advances d d' ∨ Resets d d') : AfterTimeout e r last d' := by
  rcases hd with ⟨he, hl, -, -, hv⟩ | hr
  · refine ⟨he ▸ h.1, fun hed => ?_⟩
    obtain ⟨hround, hlast⟩ := h.2 (hed.trans he)
    refine ⟨Nat.le_trans hround hl, fun w hw hwr => ?_⟩
    rcases hv with hv | ⟨v, hv', -, -, hlt⟩
    · exact hlast w (hv ▸ hw) hwr
    · rw [hv'] at hw
      cases hw
      omega
  · refine ⟨Nat.le_of_lt (Nat.lt_of_le_of_lt h.1 hr.1), fun hed => ?_⟩
    have := Nat.lt_of_le_of_lt h.1 hr.1
    omega

/-- **No fresh vote after a timeout of its round.** After a signed 2-chain timeout
for round `r`, whatever requests follow, a 2-chain vote for a block of round `r`
of the timeout's epoch either fails or returns the last vote stored before the
timeout. -/
theorem vote_after_timeout (s : SafetyRules σ) (hc : Coherent L.view s) (t : TwoChainTimeout)
    (tc : Option TwoChainTimeoutCertificate) (now : ℕ) {sig : Ed25519Signature}
    (hsig : (handleMessage L.backend env s (.signTimeoutWithQc t tc, now)).2 = .signature (.ok sig))
    (is : List (SafetyRulesInput × ℕ)) (p : MaybeSignedVoteProposal)
    (tc' : Option TwoChainTimeoutCertificate) (now' : ℕ) (hr : p.voteProposal.block.round = t.round)
    (he : p.voteProposal.block.epoch = t.epoch) {v : Vote}
    (hv : (handleMessage L.backend env
      (run (handleMessage L.backend env) (handleMessage L.backend env s (.signTimeoutWithQc t tc, now)).1
        is).1 (.constructAndSignVoteTwoChain p tc', now')).2 = .vote (.ok v)) :
    (stored L.view s).lastVote = some v := by
  let s₁ := (handleMessage L.backend env s (.signTimeoutWithQc t tc, now)).1
  let s₂ := (run (handleMessage L.backend env) s₁ is).1
  let P (x : SafetyRules σ) : Prop :=
    Coherent L.view x ∧ AfterTimeout t.epoch t.round (stored L.view s).lastVote (stored L.view x)
  -- the timeout leaves the last vote and raises the last voted round to `r`
  have h₁ : P s₁ := by
    have hto := answer_ok_of_triple signature_inj (guardedSignTimeoutWithQc_spec L t tc s) hsig
    obtain ⟨hc₁, hraise⟩ := hto.1 hc
    have hj := hto.2 hc
    have hep : (stored L.view s₁).epoch = t.epoch := hraise.advances.1.trans hj.epoch.symm
    refine ⟨hc₁, Nat.le_of_eq hep.symm, fun _ => ⟨hj.round_le, fun w hw _ => ?_⟩⟩
    rw [← hraise.lastVote]
    exact hw
  -- every later request keeps it
  have h₂ : P s₂ := (@reachable_run _ _ _ (fun x => x = s₁) (handleMessage L.backend env) s₁ rfl
      is).invariant P
    (fun x (hx : x = s₁) => hx ▸ h₁)
    (fun x i hx => by
      obtain ⟨hc', hd⟩ := (handleMessage_step L env x i).cases hx.1
      exact ⟨hc', hx.2.step (hd.imp id fun h => h.2)⟩)
  obtain ⟨hc₂, hafter⟩ := h₂
  obtain ⟨hvr, hve⟩ := answer_ok_of_triple (fun _ _ h => SafetyRulesOutput.vote.inj h)
    (guardedConstructAndSignVoteTwoChain_block_spec L env p tc' now' s₂) hv
  have hep : t.epoch = (stored L.view s₂).epoch := he.symm.trans (hve hc₂)
  obtain ⟨hround, hlast⟩ := hafter.2 hep
  -- the vote is the stored last vote, of round `r`, or a fresh one above round `r`
  rcases handleMessage_vote L env s₂ (.constructAndSignVoteTwoChain p tc', now') hv hc₂ with
    ⟨-, hlv⟩ | ⟨-, -, -, hlt⟩
  · exact hlast v hlv (Nat.le_of_eq (hvr.trans hr))
  · rw [hvr, hr] at hlt
    omega

/-- The three rules of the 2-chain protocol, for the requests served from `s`: a
fresh 2-chain vote passed `safe_to_vote` above the last voted round and commits by
the 2-chain rule; a signed 2-chain timeout passed `safe_to_timeout` and is not
below the last voted round; and after a signed timeout for round `r`, no later
2-chain vote for a block of round `r` in the same epoch returns anything but the
last vote stored before the timeout. -/
structure TwoChainRules (s : SafetyRules σ) : Prop where
  vote : ∀ p tc now v,
    (handleMessage L.backend env s (.constructAndSignVoteTwoChain p tc, now)).2 = .vote (.ok v) →
    (stored L.view s).lastVote ≠ some v →
    (stored L.view s).lastVotedRound < p.voteProposal.block.round ∧
      (p.voteProposal.block.round = p.voteProposal.block.quorumCert.certifiedBlock.round + 1 ∨
        ∃ c, tc = some c ∧ p.voteProposal.block.round = c.round + 1 ∧
          c.highestHqcRound ≤ p.voteProposal.block.quorumCert.certifiedBlock.round) ∧
      v.ledgerInfo.commitInfo =
        if p.voteProposal.block.quorumCert.certifiedBlock.round + 1 = p.voteProposal.block.round
        then p.voteProposal.block.quorumCert.certifiedBlock else env.emptyBlockInfo
  timeout : ∀ t tc now sig,
    (handleMessage L.backend env s (.signTimeoutWithQc t tc, now)).2 = .signature (.ok sig) →
    (stored L.view s).lastVotedRound ≤ t.round ∧ (stored L.view s).oneChainRound ≤ t.hqcRound ∧
      (t.round = t.hqcRound + 1 ∨ t.round = tc.elim 0 (·.round) + 1)
  vote_after_timeout : ∀ t tc now sig,
    (handleMessage L.backend env s (.signTimeoutWithQc t tc, now)).2 = .signature (.ok sig) →
    ∀ is p tc' now' v, p.voteProposal.block.round = t.round → p.voteProposal.block.epoch = t.epoch →
      (handleMessage L.backend env
        (run (handleMessage L.backend env)
          (handleMessage L.backend env s (.signTimeoutWithQc t tc, now)).1 is).1
        (.constructAndSignVoteTwoChain p tc', now')).2 = .vote (.ok v) →
      (stored L.view s).lastVote = some v

/-- **The 2-chain rules** hold from every state whose cache is coherent. -/
theorem two_chain_rules (s : SafetyRules σ) (hc : Coherent L.view s) : TwoChainRules L env s :=
  ⟨fun p tc now _ hv hnew => two_chain_vote_rules L env s hc p tc now hv hnew,
    fun t tc now _ hsig => two_chain_timeout_rules L env s hc t tc now hsig,
    fun t tc now _ hsig is p tc' now' _ hr he hv =>
      vote_after_timeout L env s hc t tc now hsig is p tc' now' hr he hv⟩

end SafetyRules

open SafetyRules

/-! ## Runs on fixed inputs

The validator of `GenesisFork`, before it has voted, and with stale data: a last
vote for round 5 stored above a last voted round of 0. No request leaves such
data, but the replay shortcut does not check for it. -/

namespace StaleVote

open GenesisFork (genesis blockInfo genesisCert block start storage env voteB₁)

/-- A vote for round 5 of epoch 1. -/
def staleVote : Vote := ⟨⟨blockInfo 15 5, genesis 1⟩, 0, ⟨default, ⟨0⟩⟩, default, none⟩

/-- Safety data holding `staleVote` as its last vote, at last voted round 0. -/
def staleData : SafetyData :=
  { epoch := 1, lastVotedRound := 0, preferredRound := 0, oneChainRound := 0,
    lastVote := some staleVote }

/-- The validator of `GenesisFork` with the stale data stored and cached. -/
def stale : SafetyRules InMemoryStorage :=
  { start with
    persistentStorage :=
      { start.persistentStorage with
        cachedSafetyData := some staleData
        internalStore := { start.persistentStorage.internalStore with safetyData := some staleData } } }

/-- A 3-chain vote request for a block of round 5 over the genesis. -/
def voteRound5 : SafetyRulesInput × ℕ :=
  (.constructAndSignVote ⟨⟨default, block 15 5 (genesisCert (genesis 1)), none⟩, none⟩, 0)

/-- A 3-chain vote request for a block of round 1 over the genesis. -/
def voteRound1 : SafetyRulesInput × ℕ :=
  (.constructAndSignVote ⟨⟨default, block 11 1 (genesisCert (genesis 1)), none⟩, none⟩, 0)

theorem start_invariant : Invariant storage.view start :=
  initialized_consistent env 0 default default default true

end StaleVote

open GenesisFork (storage env start) in
open StaleVote in
/-- **A replayed vote above the persisted round.** From a state whose cache is
coherent but whose stored last vote, for round 5, is above its last voted round 0,
a vote request for round 5 returns that vote and leaves the persisted last voted
round at 0. -/
theorem replay_above_last_voted_round :
    Coherent storage.view stale ∧
      (handleMessage storage.backend env stale voteRound5).2 = .vote (.ok staleVote) ∧
      (stored storage.view (handleMessage storage.backend env stale voteRound5).1).lastVotedRound <
        staleVote.round :=
  ⟨Or.inr rfl, rfl, by decide⟩

open GenesisFork (storage env start) in
open StaleVote in
theorem signatures_after_persist_start :
    Invariant storage.view start ∧ PersistsBeforeSigning storage env start voteRound1 :=
  ⟨start_invariant, signatures_after_persist storage env start start_invariant voteRound1⟩

open GenesisFork (genesis genesisCert block storage env start voteB₁) in
open StaleVote in
/-- The first vote of `GenesisFork`, for `B₁` at round 1: fresh, above last voted
round 0, and committing nothing. -/
theorem three_chain_vote_rules_start :
    Coherent storage.view start ∧
      (handleMessage storage.backend env start voteRound1).2 = .vote (.ok voteB₁) ∧
      (stored storage.view start).lastVote ≠ some voteB₁ ∧
      let D := stored storage.view start
      let D' := stored storage.view (handleMessage storage.backend env start voteRound1).1
      let B := block 11 1 (genesisCert (genesis 1))
      D.lastVotedRound < B.round ∧ D.preferredRound ≤ B.quorumCert.certifiedBlock.round ∧
        D'.preferredRound = max D.preferredRound B.quorumCert.parentBlock.round ∧
        voteB₁.ledgerInfo.commitInfo =
          if B.quorumCert.parentBlock.round + 1 = B.quorumCert.certifiedBlock.round ∧
              B.quorumCert.certifiedBlock.round + 1 = B.round then B.quorumCert.parentBlock
          else env.emptyBlockInfo :=
  have hv : (handleMessage storage.backend env start voteRound1).2 = .vote (.ok voteB₁) := rfl
  have hnew : (stored storage.view start).lastVote ≠ some voteB₁ := by decide
  ⟨start_invariant.1, hv, hnew, three_chain_vote_rules storage env start start_invariant.1 _ 0 hv hnew⟩

open GenesisFork (storage env start) in
theorem two_chain_rules_start :
    Coherent storage.view start ∧ TwoChainRules storage env start :=
  have hc : Coherent storage.view start := Or.inr rfl
  ⟨hc, two_chain_rules storage env start hc⟩

end Dijets.Consensus
