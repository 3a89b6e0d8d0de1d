import Mathlib
import Dijets.Lib.Run
import Dijets.Consensus.RequestSpec
import Dijets.Consensus.InMemoryStorage

/-!
# Safety of SafetyRules over whole runs

SafetyRules answers requests one at a time through `handleMessage`. This module
proves what holds over every run of it, in any order and with any inputs, from
any state whose cache is coherent and whose last vote is consistent with its
rounds (as the fresh storage and every state SafetyRules leaves are):

* `persisted_monotone` — between two successive states the persisted epoch
  never decreases, the three rounds never decrease within an epoch, and they
  are reset, with the last vote, only by `initialize` moving to a newer epoch;
* `no_equivocation` — two votes a run returns for the same epoch and round are
  the same vote.

Both rest on `handleMessage_step` and `handleMessage_vote`, which read off the
request triples of `RequestSpec` what one request does, and on a few facts about
safety data alone (`LastVoteConsistent`, `VoteCompatible`). The second is an
instance of `Reachable.pairwise`: the state remembers enough of every vote it
returned, through its last voted round and its last vote, to refuse a second
vote for the same round.
-/

set_option autoImplicit false

namespace Dijets.Consensus

open Std.Do Dijets.Lib

namespace SafetyRules

variable {σ : Type}

/-! ## Safety data that cannot equivocate -/

/-- The last vote is of the stored epoch and not above the last voted round. -/
def LastVoteConsistent (d : SafetyData) : Prop :=
  ∀ v, d.lastVote = some v → v.epoch = d.epoch ∧ v.round ≤ d.lastVotedRound

/-- A vote returned earlier is compatible with the safety data now: of no later
epoch, and if of this epoch then not above the last voted round and equal to the
last vote if that is for its round. -/
def VoteCompatible (d : SafetyData) (v : Vote) : Prop :=
  v.epoch ≤ d.epoch ∧
    (v.epoch = d.epoch → v.round ≤ d.lastVotedRound ∧
      ∀ w, d.lastVote = some w → w.round = v.round → w = v)

theorem Advances.lastVoteConsistent {d d' : SafetyData} (ha : Advances d d')
    (h : LastVoteConsistent d) : LastVoteConsistent d' := by
  obtain ⟨he, hl, -, -, hv⟩ := ha
  intro w hw
  rcases hv with hv | ⟨v, hv', hve, hvr, -⟩
  · obtain ⟨hwe, hwr⟩ := h w (hv ▸ hw)
    exact ⟨hwe.trans he.symm, Nat.le_trans hwr hl⟩
  · rw [hv'] at hw
    cases hw
    exact ⟨hve.trans he.symm, Nat.le_of_eq hvr⟩

theorem Resets.lastVoteConsistent {d d' : SafetyData} (hr : Resets d d') :
    LastVoteConsistent d' := by
  intro w hw
  rw [hr.2] at hw
  cases hw

theorem VoteCompatible.advances {d d' : SafetyData} {u : Vote} (ha : Advances d d')
    (h : VoteCompatible d u) : VoteCompatible d' u := by
  obtain ⟨he, hl, -, -, hv⟩ := ha
  obtain ⟨hue, hu⟩ := h
  refine ⟨he ▸ hue, fun hue' => ?_⟩
  obtain ⟨hur, hlast⟩ := hu (hue'.trans he)
  refine ⟨Nat.le_trans hur hl, fun w hw hwr => ?_⟩
  rcases hv with hv | ⟨v, hv', -, -, hlt⟩
  · exact hlast w (hv ▸ hw) hwr
  · -- a fresh last vote is above every round voted before
    rw [hv'] at hw
    cases hw
    omega

theorem VoteCompatible.resets {d d' : SafetyData} {u : Vote} (hr : Resets d d')
    (h : VoteCompatible d u) : VoteCompatible d' u := by
  refine ⟨Nat.le_of_lt (Nat.lt_of_le_of_lt h.1 hr.1), fun hue => ?_⟩
  have := Nat.lt_of_le_of_lt h.1 hr.1
  omega

/-- A vote just returned is compatible with the data the request leaves. -/
theorem VoteOutcome.compatible {d d' : SafetyData} {v : Vote} (ho : VoteOutcome d d' v)
    (ha : Advances d d') (hl : LastVoteConsistent d) : VoteCompatible d' v := by
  rcases ho with ⟨rfl, hv⟩ | ⟨hv, hve, hvr, -⟩
  · obtain ⟨hve, hvr⟩ := hl v hv
    exact ⟨Nat.le_of_eq hve, fun _ => ⟨hvr, fun w hw _ => Option.some.inj (hw.symm.trans hv)⟩⟩
  · refine ⟨Nat.le_of_eq (hve.trans ha.1.symm), fun _ => ⟨Nat.le_of_eq hvr, ?_⟩⟩
    intro w hw _
    exact Option.some.inj (hw.symm.trans hv)

/-- **No equivocation in one step.** A vote just returned and a compatible earlier
vote of the same epoch and round are the same vote. -/
theorem VoteOutcome.eq_of_compatible {d d' : SafetyData} {u v : Vote}
    (ho : VoteOutcome d d' v) (hl : LastVoteConsistent d) (hu : VoteCompatible d u)
    (he : u.epoch = v.epoch) (hr : u.round = v.round) : u = v := by
  rcases ho with ⟨-, hv⟩ | ⟨-, hve, -, hlt⟩
  · -- the last vote again: the earlier vote of its round is the last vote
    obtain ⟨hve, -⟩ := hl v hv
    exact ((hu.2 (he.trans hve)).2 v hv hr.symm).symm
  · -- a fresh vote is above the round of every earlier vote of its epoch
    have := (hu.2 (he.trans hve)).1
    omega

/-! ## One request -/

/-- What a request may do to the state it is served from: `initialize` leaves the
stored data or resets it, every other request advances it. -/
def StepOutcome (view : σ → SafetyData) : SafetyRulesInput → SafetyRules σ → SafetyRules σ → Prop
  | .init _, s, s' => Initialized view s s'
  | _, s, s' => Moves view s s'

/-- The state an answer leaves, read off a triple for the request. -/
theorem answer_fst_of_triple {α : Type} {m : EStateM Error (SafetyRules σ) α}
    {wrap : Except Error α → SafetyRulesOutput} {s₀ : SafetyRules σ} {Q : α → SafetyRules σ → Prop}
    {E : Error → SafetyRules σ → Prop} {R : SafetyRules σ → Prop}
    (h : ⦃fun s => ⌜s = s₀⌝⦄ m ⦃post⟨fun a s => ⌜Q a s⌝, fun e s => ⌜E e s⌝⟩⦄)
    (hQ : ∀ a s, Q a s → R s) (hE : ∀ e s, E e s → R s) : R (answer m wrap s₀).1 := by
  have hrun := run_of_triple h (rfl : s₀ = s₀)
  simp only [EStateM.run] at hrun
  simp only [answer]
  split <;> rename_i heq <;> simp only [heq] at hrun
  · exact hQ _ _ hrun
  · exact hE _ _ hrun

/-- The vote an answer returns, read off a triple for the request. -/
theorem answer_vote_of_triple {m : EStateM Error (SafetyRules σ) Vote} {s₀ : SafetyRules σ}
    {Q : Vote → SafetyRules σ → Prop} {E : Error → SafetyRules σ → Prop}
    (h : ⦃fun s => ⌜s = s₀⌝⦄ m ⦃post⟨fun a s => ⌜Q a s⌝, fun e s => ⌜E e s⌝⟩⦄) {v : Vote}
    (hv : (answer m .vote s₀).2 = .vote (.ok v)) : Q v (answer m .vote s₀).1 := by
  have hrun := run_of_triple h (rfl : s₀ = s₀)
  simp only [EStateM.run] at hrun
  simp only [answer] at hv ⊢
  split at hv <;> simp_all

/-- A request that answers with something other than a vote. -/
theorem answer_ne_vote {α : Type} {m : EStateM Error (SafetyRules σ) α}
    {wrap : Except Error α → SafetyRulesOutput} (hwrap : ∀ r v, wrap r ≠ .vote v)
    (s : SafetyRules σ) (v : Except Error Vote) : (answer m wrap s).2 ≠ .vote v := by
  simp only [answer]
  split <;> exact hwrap _ _

variable (L : LawfulStorage σ) (env : Env)

/-- **What one request does**, for every request and every state. -/
theorem handleMessage_step (s : SafetyRules σ) (i : SafetyRulesInput × ℕ) :
    StepOutcome L.view i.1 s (handleMessage L.backend env s i).1 := by
  obtain ⟨i, now⟩ := i
  have hU {s₀ s : SafetyRules σ} : Unchanged L.view s₀ s → Moves L.view s₀ s := Unchanged.moves
  cases i with
  | consensusState =>
    exact answer_fst_of_triple (guardedConsensusState_spec L s) (fun _ _ => hU) (fun _ _ => hU)
  | init proof =>
    exact answer_fst_of_triple (guardedInitialize_spec L proof s) (fun _ _ => id) (fun _ _ => id)
  | constructAndSignVote proposal =>
    exact answer_fst_of_triple (guardedConstructAndSignVote_spec L proposal now s)
      (fun _ _ h => h.1.1) (fun _ _ => hU)
  | signProposal blockData =>
    exact answer_fst_of_triple (guardedSignProposal_spec L blockData s)
      (fun _ _ => hU) (fun _ _ => hU)
  | signTimeout timeout =>
    exact answer_fst_of_triple (guardedSignTimeout_spec L timeout s)
      (fun _ _ h => h.moves) (fun _ _ h => h.moves)
  | signTimeoutWithQc timeout tc =>
    exact answer_fst_of_triple (guardedSignTimeoutWithQc_spec L timeout tc s)
      (fun _ _ h => h.1.moves) (fun _ _ h => h.moves)
  | constructAndSignVoteTwoChain proposal tc =>
    exact answer_fst_of_triple (guardedConstructAndSignVoteTwoChain_spec L proposal tc now s)
      (fun _ _ h => h.1.1) (fun _ _ => hU)
  | signCommitVote ledgerInfo newLedgerInfo =>
    exact answer_fst_of_triple (guardedSignCommitVote_spec L ledgerInfo newLedgerInfo s)
      (fun _ _ => hU) (fun _ _ => hU)

/-- **What a returned vote is**: only the two vote requests return votes, and a
vote they return is a `VoteOutcome` of the request. -/
theorem handleMessage_vote (s : SafetyRules σ) (i : SafetyRulesInput × ℕ) {v : Vote}
    (hv : (handleMessage L.backend env s i).2 = .vote (.ok v)) (hc : Coherent L.view s) :
    VoteOutcome (stored L.view s) (stored L.view (handleMessage L.backend env s i).1) v := by
  obtain ⟨i, now⟩ := i
  cases i with
  | constructAndSignVote proposal =>
    exact (answer_vote_of_triple (guardedConstructAndSignVote_spec L proposal now s) hv).1.2 hc
  | constructAndSignVoteTwoChain proposal tc =>
    exact (answer_vote_of_triple
      (guardedConstructAndSignVoteTwoChain_spec L proposal tc now s) hv).1.2 hc
  | consensusState => exact absurd hv (answer_ne_vote (by simp) _ _)
  | init proof => exact absurd hv (answer_ne_vote (by simp) _ _)
  | signProposal blockData => exact absurd hv (answer_ne_vote (by simp) _ _)
  | signTimeout timeout => exact absurd hv (answer_ne_vote (by simp) _ _)
  | signTimeoutWithQc timeout tc => exact absurd hv (answer_ne_vote (by simp) _ _)
  | signCommitVote ledgerInfo newLedgerInfo => exact absurd hv (answer_ne_vote (by simp) _ _)

/-! ## Whole runs -/

/-- The invariant of every reachable state. -/
def Invariant (view : σ → SafetyData) (s : SafetyRules σ) : Prop :=
  Coherent view s ∧ LastVoteConsistent (stored view s)

/-- The step either advances the stored data or, for `initialize`, resets it. -/
theorem StepOutcome.cases {view : σ → SafetyData} {i : SafetyRulesInput} {s s' : SafetyRules σ}
    (h : StepOutcome view i s s') (hc : Coherent view s) :
    Coherent view s' ∧ (Advances (stored view s) (stored view s') ∨
      (∃ proof, i = .init proof) ∧ Resets (stored view s) (stored view s')) := by
  cases i with
  | init proof =>
    obtain ⟨hc', hd⟩ := h hc
    rcases hd with hd | hd
    · exact ⟨hc', Or.inl (hd ▸ Advances.refl _)⟩
    · exact ⟨hc', Or.inr ⟨⟨proof, rfl⟩, hd⟩⟩
  | _ => exact ⟨(h hc).1, Or.inl (h hc).2⟩

theorem handleMessage_invariant (s : SafetyRules σ) (i : SafetyRulesInput × ℕ)
    (hs : Invariant L.view s) : Invariant L.view (handleMessage L.backend env s i).1 := by
  obtain ⟨hc', hd⟩ := (handleMessage_step L env s i).cases hs.1
  refine ⟨hc', ?_⟩
  rcases hd with ha | ⟨-, hr⟩
  · exact ha.lastVoteConsistent hs.2
  · exact hr.lastVoteConsistent

/-- A freshly initialized in-memory store caches what it holds, and holds no vote. -/
theorem initialized_consistent (env : Env) (author : Author)
    (consensusPrivateKey executionPrivateKey : Ed25519PrivateKey) (waypoint : Waypoint)
    (enableCachedSafetyData : Bool) :
    let p := InMemoryStorage.initialized author consensusPrivateKey executionPrivateKey waypoint
      enableCachedSafetyData
    PersistentSafetyStorage.CacheCoherent (InMemoryStorage.lawfulStorage env).view p ∧
      LastVoteConsistent (PersistentSafetyStorage.stored (InMemoryStorage.lawfulStorage env).view p) :=
  ⟨Or.inr rfl, fun _ hv => by cases hv⟩

/-- `SafetyRules::new` over a storage whose cache is coherent and whose data is
consistent starts in the invariant. -/
theorem new_invariant {p : PersistentSafetyStorage σ}
    (hp : PersistentSafetyStorage.CacheCoherent L.view p ∧
      LastVoteConsistent (PersistentSafetyStorage.stored L.view p))
    {verify exportKey decoupled : Bool} {s : SafetyRules σ}
    (h : SafetyRules.new L.backend p verify exportKey decoupled = some s) : Invariant L.view s := by
  unfold SafetyRules.new at h
  split at h
  · -- the execution key is read first; the read leaves the stored data alone
    have hv := L.lawful.getExecutionPublicKey_view p.internalStore
    simp only [PersistentSafetyStorage.executionPublicKey, PersistentSafetyStorage.backend] at h
    rcases hk : L.backend.getExecutionPublicKey p.internalStore with ⟨b, _ | key⟩ <;>
      rw [hk] at h hv <;> simp only [reduceCtorEq, Option.some.injEq] at h
    subst h
    simp only [Invariant, Coherent, stored, PersistentSafetyStorage.CacheCoherent,
      PersistentSafetyStorage.stored] at hp hv ⊢
    rw [hv]
    exact hp
  · simp only [Option.some.injEq] at h
    subst h
    exact hp

/-- A history in which no two votes of one epoch and round differ. -/
def EquivocationFree (out : List SafetyRulesOutput) : Prop :=
  ∀ v w, SafetyRulesOutput.vote (.ok v) ∈ out → SafetyRulesOutput.vote (.ok w) ∈ out →
    v.epoch = w.epoch → v.round = w.round → v = w

/-- **Monotone persisted safety data.** From any state reachable from coherent
states, one request leaves the persisted epoch and rounds where they were or
higher within the same epoch, or, only for `initialize`, resets them in a
strictly newer epoch. -/
theorem persisted_monotone {init : SafetyRules σ → Prop}
    (hinit : ∀ s, init s → Coherent L.view s) {s : SafetyRules σ} {out : List SafetyRulesOutput}
    (h : Reachable init (handleMessage L.backend env) s out) (i : SafetyRulesInput × ℕ) :
    let d := stored L.view s
    let d' := stored L.view (handleMessage L.backend env s i).1
    (d'.epoch = d.epoch ∧ d.lastVotedRound ≤ d'.lastVotedRound ∧
        d.preferredRound ≤ d'.preferredRound ∧ d.oneChainRound ≤ d'.oneChainRound) ∨
      ((∃ proof, i.1 = .init proof) ∧ d.epoch < d'.epoch ∧
        d' = { epoch := d'.epoch, lastVotedRound := 0, preferredRound := 0,
               oneChainRound := 0, lastVote := none }) := by
  -- coherence alone is invariant, and it is all one step needs
  have hc : Coherent L.view s :=
    h.invariant (Coherent L.view) hinit fun s i hs => ((handleMessage_step L env s i).cases hs).1
  rcases ((handleMessage_step L env s i).cases hc).2 with ⟨he, hl, hp, ho, -⟩ | ⟨hi, hr⟩
  · exact Or.inl ⟨he, hl, hp, ho⟩
  · exact Or.inr ⟨hi, hr⟩

/-- **No equivocation.** In every run from states satisfying the invariant, two
votes returned for the same epoch and round are the same vote. -/
theorem no_equivocation {init : SafetyRules σ → Prop} (hinit : ∀ s, init s → Invariant L.view s)
    {s : SafetyRules σ} {out : List SafetyRulesOutput}
    (h : Reachable init (handleMessage L.backend env) s out) : EquivocationFree out := by
  -- the state remembers every vote returned so far through `VoteCompatible`
  have hrun := h.pairwise (Invariant L.view)
    (fun s o => ∀ v, o = .vote (.ok v) → VoteCompatible (stored L.view s) v)
    (fun b c => ∀ v w, b = .vote (.ok v) → c = .vote (.ok w) → v.epoch = w.epoch →
      v.round = w.round → v = w)
    hinit (handleMessage_invariant L env)
    (fun s i o hs ho v hv => by
      -- an earlier vote stays compatible with what the step leaves
      rcases ((handleMessage_step L env s i).cases hs.1).2 with ha | ⟨-, hr⟩
      · exact (ho v hv).advances ha
      · exact (ho v hv).resets hr)
    (fun s i hs v hv => by
      -- the vote just returned is compatible with what the step leaves
      have hout := handleMessage_vote L env s i hv hs.1
      rcases ((handleMessage_step L env s i).cases hs.1).2 with ha | ⟨⟨proof, hi⟩, -⟩
      · exact hout.compatible ha hs.2
      · exfalso
        obtain ⟨i, now⟩ := i
        simp only at hi
        subst hi
        exact answer_ne_vote (by simp) _ _ hv)
    (fun s i hs v w hv hw _ _ => by
      rw [hv] at hw
      cases hw
      rfl)
    (fun s i o hs ho => by
      constructor
      · intro u v hu hv he hr
        exact (handleMessage_vote L env s i hv hs.1).eq_of_compatible hs.2 (ho u hu) he hr
      · intro v u hv hu he hr
        exact ((handleMessage_vote L env s i hv hs.1).eq_of_compatible hs.2 (ho u hu)
          he.symm hr.symm).symm)
  intro v w hv hw he hr
  exact hrun.2.2 _ hv _ hw v w rfl rfl he hr

/-! ## A run with votes -/

/-- An environment in which every signature, certificate and proof checks: an epoch-change
proof leads to epoch 2 with the default validator set, every key has the default public key,
and no block reconfigures or ends its epoch. -/
def testEnv : Env :=
  { (default : Env) with
    verifySignature := fun _ _ _ => .ok ()
    validatorVerify := fun _ _ _ _ => .ok ()
    verifySignatures := fun _ _ => .ok ()
    checkVotingPower := fun _ _ => .ok ()
    getPublicKey := fun _ _ => some default
    verifyEpochChangeProof := fun _ _ => .ok default
    nextEpochState := fun _ => some { epoch := 2, verifier := default }
    endsEpoch := fun _ => false
    newEpochBoundary := fun _ => .ok default
    verifyExtension := fun _ _ => .ok default
    hasReconfiguration := fun _ => false }

/-- The block of round `round` of epoch 2, timestamped with its round. -/
def blockInfoAt (round : ℕ) : BlockInfo :=
  { (default : BlockInfo) with epoch := 2, round := round, timestampUsecs := round }

/-- The certificate of the block of round `round`, over the block of the round before; at
round 0 a genesis certificate. -/
def qcAt (round : ℕ) : QuorumCert :=
  { voteData := { proposed := blockInfoAt round, parent := blockInfoAt (round - 1) }
    signedLedgerInfo :=
      { ledgerInfo := { commitInfo := blockInfoAt 0, consensusDataHash := default }
        signatures := [] } }

/-- Author 0's proposal for `round`, over the certificate of the round before. -/
def blockDataAt (round : ℕ) : BlockData :=
  { epoch := 2, round := round, timestampUsecs := round, quorumCert := qcAt (round - 1)
    blockType := .proposal [] 0 }

def proposalAt (round : ℕ) : MaybeSignedVoteProposal :=
  { voteProposal :=
      { accumulatorExtensionProof := default, nextEpochState := none
        block := { id := default, signature := some default, blockData := blockDataAt round } }
    signature := none }

/-- SafetyRules, as `SafetyRules::new` makes it, over an in-memory store initialized for
author 0. -/
def startState : SafetyRules InMemoryStorage :=
  ⟨InMemoryStorage.initialized 0 default default default true, none, false, none, none, false⟩

theorem new_startState :
    SafetyRules.new (InMemoryStorage.lawfulStorage testEnv).backend
      (InMemoryStorage.initialized 0 default default default true) false false false =
      some startState := rfl

/-- What `SafetyRules::new` makes over the initialized store keeps the invariant. -/
theorem invariant_of_new_startState {s : SafetyRules InMemoryStorage}
    (h : SafetyRules.new (InMemoryStorage.lawfulStorage testEnv).backend
      (InMemoryStorage.initialized 0 default default default true) false false false = some s) :
    Invariant (InMemoryStorage.lawfulStorage testEnv).view s :=
  new_invariant (InMemoryStorage.lawfulStorage testEnv)
    (initialized_consistent testEnv 0 default default default true) h

/-- Every sequence of requests served from the start state is a run of the machine. -/
theorem reachable_startState_run (calls : List (SafetyRulesInput × ℕ)) :
    let step := handleMessage (InMemoryStorage.lawfulStorage testEnv).backend testEnv
    Reachable (fun s => SafetyRules.new (InMemoryStorage.lawfulStorage testEnv).backend
        (InMemoryStorage.initialized 0 default default default true) false false false = some s)
      step (run step startState calls).1 (run step startState calls).2 :=
  @reachable_run _ _ _ _ (handleMessage (InMemoryStorage.lawfulStorage testEnv).backend testEnv)
    startState new_startState calls

/-- Initialize into epoch 2, vote in round 1, and ask for the vote of round 1 again. -/
def roundOneCalls : List (SafetyRulesInput × ℕ) :=
  [(.init default, 0), (.constructAndSignVote (proposalAt 1), 0),
    (.constructAndSignVote (proposalAt 1), 0)]

def roundOneRun : SafetyRules InMemoryStorage × List SafetyRulesOutput :=
  run (handleMessage (InMemoryStorage.lawfulStorage testEnv).backend testEnv) startState
    roundOneCalls

/-- The output is a vote returned. -/
def SafetyRulesOutput.isVote : SafetyRulesOutput → Bool
  | .vote (.ok _) => true
  | _ => false

/-- The vote of round 2, after the run of round 1, raises the last voted round and the
one-chain round it persists, within epoch 2. -/
theorem persisted_monotone_roundTwo :
    Reachable (fun s => SafetyRules.new (InMemoryStorage.lawfulStorage testEnv).backend
        (InMemoryStorage.initialized 0 default default default true) false false false = some s)
      (handleMessage (InMemoryStorage.lawfulStorage testEnv).backend testEnv)
      roundOneRun.1 roundOneRun.2 ∧
    let d := stored (InMemoryStorage.lawfulStorage testEnv).view roundOneRun.1
    let d' := stored (InMemoryStorage.lawfulStorage testEnv).view
      (handleMessage (InMemoryStorage.lawfulStorage testEnv).backend testEnv roundOneRun.1
        (.constructAndSignVote (proposalAt 2), 0)).1
    (d.epoch = 2 ∧ d.lastVotedRound < d'.lastVotedRound ∧ d.oneChainRound < d'.oneChainRound) ∧
    ((d'.epoch = d.epoch ∧ d.lastVotedRound ≤ d'.lastVotedRound ∧
        d.preferredRound ≤ d'.preferredRound ∧ d.oneChainRound ≤ d'.oneChainRound) ∨
      ((∃ proof, SafetyRulesInput.constructAndSignVote (proposalAt 2) = .init proof) ∧
        d.epoch < d'.epoch ∧
        d' = { epoch := d'.epoch, lastVotedRound := 0, preferredRound := 0,
               oneChainRound := 0, lastVote := none })) := by
  have hreach := reachable_startState_run roundOneCalls
  exact ⟨hreach, by decide,
    persisted_monotone (InMemoryStorage.lawfulStorage testEnv) testEnv
      (fun _ h => (invariant_of_new_startState h).1) hreach
      (.constructAndSignVote (proposalAt 2), 0)⟩

/-- Initialize, vote in round 1, get the same vote again, vote in round 2. -/
def voteRun : SafetyRules InMemoryStorage × List SafetyRulesOutput :=
  run (handleMessage (InMemoryStorage.lawfulStorage testEnv).backend testEnv) startState
    (roundOneCalls ++ [(.constructAndSignVote (proposalAt 2), 0)])

theorem no_equivocation_voteRun :
    Reachable (fun s => SafetyRules.new (InMemoryStorage.lawfulStorage testEnv).backend
        (InMemoryStorage.initialized 0 default default default true) false false false = some s)
      (handleMessage (InMemoryStorage.lawfulStorage testEnv).backend testEnv) voteRun.1 voteRun.2 ∧
    (voteRun.2.filter SafetyRulesOutput.isVote).length = 3 ∧ EquivocationFree voteRun.2 := by
  have hreach :=
    reachable_startState_run (roundOneCalls ++ [(.constructAndSignVote (proposalAt 2), 0)])
  exact ⟨hreach, by decide,
    no_equivocation (InMemoryStorage.lawfulStorage testEnv) testEnv
      (fun _ h => invariant_of_new_startState h) hreach⟩

end SafetyRules

end Dijets.Consensus
