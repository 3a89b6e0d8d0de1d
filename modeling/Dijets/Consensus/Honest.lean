import Mathlib
import Dijets.Consensus.Safety

/-!
# Honest validators

An honest validator answers the requests of its consensus protocol through its
own SafetyRules. For the safety of a protocol run what matters is what each
validator signed, so the machine here is `handleMessage` restricted to the
requests of one protocol and logging every request with its answer: the log is
what the validator has put its signature to.

The two protocols use different requests. The 3-chain protocol (DijetsBFT v3)
votes with `construct_and_sign_vote` and the 2-chain protocol (v4) with
`construct_and_sign_vote_two_chain`; neither vote request checks the other's
voting rule, so a validator of one protocol is not asked the other's vote. Nor
is it asked `sign_commit_vote`, the commit vote of decoupled execution, which
signs a ledger info whose consensus data hash is not checked against anything.
Every other request may come in any order, with any arguments.

This module holds what both protocols share: the machine, the reading of a
log, the facts about the ledger infos each vote rule builds, and
`HonestVotes`, what every vote of an honest validator satisfies under either
protocol, which is what the uniqueness of certificates rests on.
-/

set_option autoImplicit false

namespace Dijets.Consensus

open Std.Do Dijets.Lib

namespace SafetyRules

variable {σ : Type}

/-- A request with the answer it got. -/
abbrev Entry := SafetyRulesInput × SafetyRulesOutput

/-- The vote an answer returns, if it returns one. -/
def voteOf : SafetyRulesOutput → Option Vote
  | .vote (.ok v) => some v
  | _ => none

/-- `v` is one of the votes a log returned. -/
def VoteIn (log : List Entry) (v : Vote) : Prop := ∃ e ∈ log, voteOf e.2 = some v

/-- The requests of the 3-chain protocol. -/
def IsThreeChain : SafetyRulesInput → Bool
  | .constructAndSignVoteTwoChain _ _ => false
  | .signCommitVote _ _ => false
  | _ => true

/-- The requests of the 2-chain protocol. -/
def IsTwoChain : SafetyRulesInput → Bool
  | .constructAndSignVote _ => false
  | .signCommitVote _ _ => false
  | _ => true

/-- A validator that serves the requests `allowed` admits, at the clock reading
each comes with, and logs each with its answer. -/
def serve (st : Storage σ) (env : Env) (allowed : SafetyRulesInput → Bool) (s : SafetyRules σ)
    (i : {i : SafetyRulesInput × ℕ // allowed i.1 = true}) : SafetyRules σ × Entry :=
  ((handleMessage st env s i.1).1, (i.1.1, (handleMessage st env s i.1).2))

/-- A state an honest validator may start from: the invariant holds and it has
not voted. -/
def Fresh (view : σ → SafetyData) (s : SafetyRules σ) : Prop :=
  Invariant view s ∧ (stored view s).lastVote = none

/-! ## Reading answers off triples -/

/-- The answer of a request, read off a triple: a success meeting the
postcondition or a failure meeting the error condition, in the state the request
leaves. -/
theorem answer_of_triple {α : Type} {m : EStateM Error (SafetyRules σ) α}
    (wrap : Except Error α → SafetyRulesOutput) {s₀ : SafetyRules σ} {Q : α → SafetyRules σ → Prop}
    {E : Error → SafetyRules σ → Prop}
    (h : ⦃fun s => ⌜s = s₀⌝⦄ m ⦃post⟨fun a s => ⌜Q a s⌝, fun e s => ⌜E e s⌝⟩⦄) :
    (∃ a, (answer m wrap s₀).2 = wrap (.ok a) ∧ Q a (answer m wrap s₀).1) ∨
      (∃ e, (answer m wrap s₀).2 = wrap (.error e) ∧ E e (answer m wrap s₀).1) := by
  have hrun := run_of_triple h (rfl : s₀ = s₀)
  simp only [EStateM.run] at hrun
  simp only [answer]
  split <;> rename_i heq <;> simp only [heq] at hrun
  · exact Or.inl ⟨_, rfl, hrun⟩
  · exact Or.inr ⟨_, rfl, hrun⟩

/-- A success of a request, read off a triple: it meets the postcondition. -/
theorem answer_ok_of_triple {α : Type} {m : EStateM Error (SafetyRules σ) α}
    {wrap : Except Error α → SafetyRulesOutput} (hwrap : ∀ r r', wrap r = wrap r' → r = r')
    {s₀ : SafetyRules σ} {Q : α → SafetyRules σ → Prop} {E : Error → SafetyRules σ → Prop}
    (h : ⦃fun s => ⌜s = s₀⌝⦄ m ⦃post⟨fun a s => ⌜Q a s⌝, fun e s => ⌜E e s⌝⟩⦄) {a : α}
    (ha : (answer m wrap s₀).2 = wrap (.ok a)) : Q a (answer m wrap s₀).1 := by
  rcases answer_of_triple wrap h with ⟨a', ha', hq⟩ | ⟨e, he, -⟩
  · rw [ha] at ha'
    cases hwrap _ _ ha'
    exact hq
  · rw [ha] at he
    cases hwrap _ _ he

/-- A failure of a request, read off a triple: it meets the error condition. -/
theorem answer_error_of_triple {α : Type} {m : EStateM Error (SafetyRules σ) α}
    {wrap : Except Error α → SafetyRulesOutput} (hwrap : ∀ r r', wrap r = wrap r' → r = r')
    {s₀ : SafetyRules σ} {Q : α → SafetyRules σ → Prop} {E : Error → SafetyRules σ → Prop}
    (h : ⦃fun s => ⌜s = s₀⌝⦄ m ⦃post⟨fun a s => ⌜Q a s⌝, fun e s => ⌜E e s⌝⟩⦄) {e : Error}
    (he : (answer m wrap s₀).2 = wrap (.error e)) : E e (answer m wrap s₀).1 := by
  rcases answer_of_triple wrap h with ⟨a, ha, -⟩ | ⟨e', he', hE⟩
  · rw [he] at ha
    cases hwrap _ _ ha
  · rw [he] at he'
    cases hwrap _ _ he'
    exact hE

/-- An answer that is not a vote returns none. -/
theorem voteOf_answer {α : Type} {m : EStateM Error (SafetyRules σ) α}
    {wrap : Except Error α → SafetyRulesOutput} (hwrap : ∀ r v, wrap r ≠ .vote v)
    (s : SafetyRules σ) : voteOf (answer m wrap s).2 = none := by
  simp only [answer]
  split <;> (rename_i heq; generalize hw : wrap _ = w; cases w <;> simp_all [voteOf])

@[simp] theorem voteOf_vote_ok (v : Vote) : voteOf (.vote (.ok v)) = some v := rfl

@[simp] theorem voteOf_vote_error (e : Error) : voteOf (.vote (.error e)) = none := rfl

/-! ## The ledger infos the two vote rules build -/

variable {env : Env}

/-- A 3-chain ledger info carries the given hash and commits either nothing or the
grandparent of a block whose three rounds are consecutive. -/
theorem constructLedgerInfo_eq_ok {b : Block} {h : HashValue} {li : LedgerInfo}
    (hc : constructLedgerInfo env b h = .ok li) :
    li.consensusDataHash = h ∧
      (li.commitInfo = env.emptyBlockInfo ∨
        (li.commitInfo = b.quorumCert.parentBlock ∧
          b.quorumCert.parentBlock.round + 1 = b.quorumCert.certifiedBlock.round ∧
          b.quorumCert.certifiedBlock.round + 1 = b.round)) := by
  unfold constructLedgerInfo at hc
  rcases h0 : nextRound b.quorumCert.parentBlock.round with _ | r0
  · simp [h0, bind, Except.bind] at hc
  rcases h1 : nextRound b.quorumCert.certifiedBlock.round with _ | r1
  · -- the second `next_round` fails only when the first equality held
    by_cases he : r0 = b.quorumCert.certifiedBlock.round
    · simp [h0, h1, he, bind, Except.bind] at hc
    · simp only [h0, bind, Except.bind, beq_iff_eq, he, ↓reduceIte, pure, Except.pure,
        Bool.false_eq_true, Except.ok.injEq] at hc
      subst hc
      exact ⟨rfl, Or.inl rfl⟩
  obtain ⟨-, rfl⟩ := Iff.mp nextRound_eq_ok h0
  obtain ⟨-, rfl⟩ := Iff.mp nextRound_eq_ok h1
  simp only [h0, h1, bind, Except.bind, beq_iff_eq, pure, Except.pure] at hc
  by_cases he0 : b.quorumCert.parentBlock.round + 1 = b.quorumCert.certifiedBlock.round
  · by_cases he1 : b.quorumCert.certifiedBlock.round + 1 = b.round
    · simp only [he0, he1, ↓reduceIte, Except.ok.injEq] at hc
      subst hc
      exact ⟨rfl, Or.inr ⟨rfl, he0, he1⟩⟩
    · simp only [he0, he1, ↓reduceIte, Except.ok.injEq] at hc
      subst hc
      exact ⟨rfl, Or.inl rfl⟩
  · simp only [he0, ↓reduceIte, Bool.false_eq_true, Except.ok.injEq] at hc
    subst hc
    exact ⟨rfl, Or.inl rfl⟩

/-- A 2-chain ledger info carries the given hash and commits either nothing or the
parent of a block whose two rounds are consecutive. -/
theorem constructLedgerInfo2chain_eq_ok {b : Block} {h : HashValue} {li : LedgerInfo}
    (hc : constructLedgerInfo2chain env b h = .ok li) :
    li.consensusDataHash = h ∧
      (li.commitInfo = env.emptyBlockInfo ∨
        (li.commitInfo = b.quorumCert.certifiedBlock ∧
          b.quorumCert.certifiedBlock.round + 1 = b.round)) := by
  unfold constructLedgerInfo2chain at hc
  rcases h0 : nextRound b.quorumCert.certifiedBlock.round with _ | r0
  · simp [h0, bind, Except.bind] at hc
  obtain ⟨-, rfl⟩ := Iff.mp nextRound_eq_ok h0
  simp only [h0, bind, Except.bind, beq_iff_eq, pure, Except.pure, Except.ok.injEq] at hc
  subst hc
  by_cases he : b.quorumCert.certifiedBlock.round + 1 = b.round <;> simp [he]

/-! ## What honest votes satisfy under either protocol -/

/-- What every vote an honest validator returned satisfies, whichever protocol it
follows: no two votes of one epoch and round differ, each was cast for a checked
proposal, over the proposal's certificate, and each signs a ledger info carrying
the hash of its vote data. -/
structure HonestVotes (env : Env) (log : List Entry) : Prop where
  unique : ∀ v w, VoteIn log v → VoteIn log w → v.epoch = w.epoch → v.round = w.round → v = w
  checked : ∀ v, VoteIn log v → ∃ b now, ProposalChecked env now b v
  hash : ∀ v, VoteIn log v → v.ledgerInfo.consensusDataHash = env.hashVoteData v.voteData

end SafetyRules

end Dijets.Consensus
