import Mathlib
import Dijets.Consensus.Honest

/-!
# The locking of an honest 3-chain validator

A 3-chain vote for a block whose certificate certifies `B₁` with parent `B₀`, at
consecutive rounds, commits `B₀`; `observe_qc` then raises the preferred round to
`B₀`'s round, and the second voting rule refuses every later vote whose
certificate certifies an older block. This module proves that over whole runs of
an honest validator: for any two votes of one epoch in its log, if the earlier
commits a block, the later one's parent is not older than that block
(`Locks3`), and the two are equal if they are of the same round. Every vote is
also `Backed3`: cast for a proposal whose checks passed, over a 3-chain ledger
info.

The argument is an instance of `Reachable.pairwise`. `Step3` says once what one
request does to the stored data and which vote it returns; the state remembers
each vote through `Compat3`: its lock is below the preferred round, and below
the parent of the last vote if that is later.
-/

set_option autoImplicit false

namespace Dijets.Consensus

open Std.Do Dijets.Lib

namespace SafetyRules

variable {σ : Type}

/-- The round a 3-chain vote locks: that of the block it commits, or 0. -/
def lockedRound (env : Env) (v : Vote) : ℕ :=
  if v.ledgerInfo.commitInfo = env.emptyBlockInfo then 0 else v.ledgerInfo.commitInfo.round

/-- A 3-chain vote as an honest validator casts it: for a proposal whose checks
passed, signing the 3-chain ledger info of its vote data. -/
def Backed3 (env : Env) (v : Vote) : Prop :=
  ∃ b now, ProposalChecked env now b v ∧
    constructLedgerInfo env b (env.hashVoteData v.voteData) = .ok v.ledgerInfo

/-- Two votes of one validator: of the same epoch and round they are equal, and a
later one has a parent not older than what the earlier one locks. -/
def Locks3 (env : Env) (v w : Vote) : Prop :=
  (v.epoch = w.epoch → v.round = w.round → v = w) ∧
    (v.epoch = w.epoch → v.round < w.round → lockedRound env v ≤ w.voteData.parent.round)

/-- The last vote was backed, and what it locks is below the preferred round. -/
def LastVoteLocked (env : Env) (d : SafetyData) : Prop :=
  ∀ w, d.lastVote = some w → Backed3 env w ∧ lockedRound env w ≤ d.preferredRound

/-- A vote returned earlier, as the stored data `d` remembers it: compatible as for
equivocation, backed, and, in `d`'s epoch, locking a round below the preferred
round and below the parent of the last vote unless it is the last vote. -/
def Compat3 (env : Env) (d : SafetyData) (v : Vote) : Prop :=
  VoteCompatible d v ∧ Backed3 env v ∧
    (v.epoch = d.epoch → lockedRound env v ≤ d.preferredRound ∧
      ∀ w, d.lastVote = some w → v = w ∨ (v.round < w.round ∧ lockedRound env v ≤ w.voteData.parent.round))

/-- What one request of an honest 3-chain validator does to the stored data `d`,
leaving `d'`, with the vote it returns, if any. -/
inductive Step3 (env : Env) (d d' : SafetyData) : Option Vote → Prop
  /-- the last vote again, with nothing written -/
  | replay {v : Vote} : d' = d → d.lastVote = some v → Step3 env d d' (some v)
  /-- a fresh vote for the block `b`, recorded as the last vote -/
  | fresh {v : Vote} (b : Block) (now : ℕ) : Advances d d' → d'.lastVote = some v →
      v.epoch = d.epoch → v.round = d'.lastVotedRound → d.lastVotedRound < v.round →
      Justified3 env now b d d' v → Step3 env d d' (some v)
  /-- no vote, and at most the last voted round raised -/
  | raise : Raises d d' → Step3 env d d' none
  /-- no vote, and a newer epoch started by `initialize` -/
  | reset : Resets d d' → Step3 env d d' none

section Data

variable {env : Env}

/-! ## What a fresh vote locks -/

theorem Justified3.backed {now : ℕ} {b : Block} {d d' : SafetyData} {v : Vote}
    (h : Justified3 env now b d d' v) : Backed3 env v :=
  ⟨b, now, h.checked, h.ledgerInfo⟩

/-- A fresh vote locks a round below the preferred round it leaves. -/
theorem Justified3.lockedRound_le {now : ℕ} {b : Block} {d d' : SafetyData} {v : Vote}
    (h : Justified3 env now b d d' v) : lockedRound env v ≤ d'.preferredRound := by
  rw [h.preferredRound_eq]
  unfold lockedRound
  split
  · exact Nat.zero_le _
  · rename_i hne
    rcases (constructLedgerInfo_eq_ok h.ledgerInfo).2 with hempty | ⟨hci, -⟩
    · exact absurd hempty hne
    · rw [hci]
      exact Nat.le_max_right _ _

/-- A fresh vote's parent is not older than anything the preferred round before it
bounds. -/
theorem Justified3.le_parent {now : ℕ} {b : Block} {d d' : SafetyData} {v : Vote}
    (h : Justified3 env now b d d' v) {r : ℕ} (hr : r ≤ d.preferredRound) :
    r ≤ v.voteData.parent.round := by
  rw [h.checked.parent]
  exact Nat.le_trans hr h.preferred_le

/-! ## One step, on the stored data -/

theorem Step3.lastVoteConsistent {d d' : SafetyData} {o : Option Vote} (h : Step3 env d d' o)
    (hl : LastVoteConsistent d) : LastVoteConsistent d' := by
  cases h with
  | replay hd _ => exact hd ▸ hl
  | fresh b now ha => exact ha.lastVoteConsistent hl
  | raise hr => exact hr.advances.lastVoteConsistent hl
  | reset hr => exact hr.lastVoteConsistent

theorem Step3.lastVoteLocked {d d' : SafetyData} {o : Option Vote} (h : Step3 env d d' o)
    (hl : LastVoteLocked env d) : LastVoteLocked env d' := by
  cases h with
  | replay hd _ => exact hd ▸ hl
  | fresh b now _ hv _ _ _ hj =>
    intro w hw
    rw [hv] at hw
    cases hw
    exact ⟨hj.backed, hj.lockedRound_le⟩
  | raise hr =>
    intro w hw
    rw [hr.lastVote] at hw
    rw [hr.preferredRound]
    exact hl w hw
  | reset hr =>
    intro w hw
    rw [hr.2] at hw
    cases hw

/-- An earlier vote stays remembered across a step. -/
theorem Step3.compat {d d' : SafetyData} {o : Option Vote} (h : Step3 env d d' o) {u : Vote}
    (hu : Compat3 env d u) : Compat3 env d' u := by
  obtain ⟨hc, hb, hlock⟩ := hu
  cases h with
  | replay hd _ => exact hd ▸ ⟨hc, hb, hlock⟩
  | fresh b now ha hv hve _ hlt hj =>
    refine ⟨hc.advances ha, hb, fun he => ?_⟩
    have he' : u.epoch = d.epoch := he.trans ha.1
    obtain ⟨hpref, -⟩ := hlock he'
    refine ⟨Nat.le_trans hpref ha.2.2.1, fun w hw => ?_⟩
    rw [hv] at hw
    cases hw
    -- the fresh vote is later than every vote of its epoch, and its parent is
    -- not older than the preferred round it was checked against
    exact Or.inr ⟨Nat.lt_of_le_of_lt ((hc.2 he').1) hlt, hj.le_parent hpref⟩
  | raise hr =>
    refine ⟨hc.advances hr.advances, hb, fun he => ?_⟩
    rw [hr.preferredRound, hr.lastVote]
    exact hlock (he.trans hr.advances.1)
  | reset hr =>
    refine ⟨hc.resets hr, hb, fun he => ?_⟩
    have := Nat.lt_of_le_of_lt hc.1 hr.1
    omega

/-- The vote a step returns is remembered by the data it leaves. -/
theorem Step3.compat_new {d d' : SafetyData} {v : Vote} (h : Step3 env d d' (some v))
    (hl : LastVoteConsistent d) (hlock : LastVoteLocked env d) : Compat3 env d' v := by
  cases h with
  | replay hd hv =>
    subst hd
    obtain ⟨hb, hpref⟩ := hlock v hv
    refine ⟨(VoteOutcome.compatible (Or.inl ⟨rfl, hv⟩) (Advances.refl _) hl), hb,
      fun _ => ⟨hpref, fun w hw => Or.inl (Option.some.inj (hv.symm.trans hw))⟩⟩
  | fresh b now ha hv hve hvr hlt hj =>
    refine ⟨VoteOutcome.compatible (Or.inr ⟨hv, hve, hvr, hlt⟩) ha hl, hj.backed,
      fun _ => ⟨hj.lockedRound_le, fun w hw => Or.inl (Option.some.inj (hv.symm.trans hw))⟩⟩

/-- An earlier vote and the vote a step returns are related both ways. -/
theorem Step3.locks {d d' : SafetyData} {v : Vote} (h : Step3 env d d' (some v))
    (hl : LastVoteConsistent d) {u : Vote} (hu : Compat3 env d u) :
    Locks3 env u v ∧ Locks3 env v u := by
  obtain ⟨hc, -, hlock⟩ := hu
  cases h with
  | replay hd hv =>
    -- the last vote is of the stored epoch, and no earlier vote of it is later
    obtain ⟨hve, -⟩ := hl v hv
    have hcases (he : u.epoch = v.epoch) :=
      (hlock (he.trans hve)).2 v hv
    refine ⟨⟨fun he hr => ?_, fun he hr => ?_⟩, ⟨fun he hr => ?_, fun he hr => ?_⟩⟩
    · exact VoteOutcome.eq_of_compatible (Or.inl ⟨hd, hv⟩) hl ⟨hc.1, hc.2⟩ he hr
    · rcases hcases he with rfl | ⟨-, hle⟩
      · omega
      · exact hle
    · exact (VoteOutcome.eq_of_compatible (Or.inl ⟨hd, hv⟩) hl ⟨hc.1, hc.2⟩ he.symm hr.symm).symm
    · rcases hcases he.symm with rfl | ⟨hlt, -⟩ <;> omega
  | fresh b now ha hv hve hvr hlt hj =>
    have hout : VoteOutcome d d' v := Or.inr ⟨hv, hve, hvr, hlt⟩
    -- an earlier vote of the fresh vote's epoch is of an earlier round
    have hround (he : u.epoch = v.epoch) : u.round < v.round :=
      Nat.lt_of_le_of_lt ((hc.2 (he.trans hve)).1) hlt
    refine ⟨⟨fun he hr => ?_, fun he _ => ?_⟩, ⟨fun he hr => ?_, fun he hr => ?_⟩⟩
    · exact hout.eq_of_compatible hl hc he hr
    · exact hj.le_parent (hlock (he.trans hve)).1
    · exact (hout.eq_of_compatible hl hc he.symm hr.symm).symm
    · have := hround he.symm
      omega

theorem locks3_self (v : Vote) : Locks3 env v v :=
  ⟨fun _ _ => rfl, fun _ hr => absurd hr (Nat.lt_irrefl _)⟩

end Data

/-! ## One request -/

variable (L : LawfulStorage σ) (env : Env)

/-- A request that returns no vote and at most raises the last voted round is a
`raise` step. -/
theorem step3_of_timedOut {α : Type} {m : EStateM Error (SafetyRules σ) α}
    {wrap : Except Error α → SafetyRulesOutput} (hwrap : ∀ r v, wrap r ≠ .vote v) {s : SafetyRules σ}
    (hc : Coherent L.view s) (h : TimedOut L.view s (answer m wrap s).1) :
    Coherent L.view (answer m wrap s).1 ∧
      Step3 env (stored L.view s) (stored L.view (answer m wrap s).1) (voteOf (answer m wrap s).2) := by
  rw [voteOf_answer hwrap]
  exact ⟨(h hc).1, .raise (h hc).2⟩

/-- A 3-chain vote request is a `replay` or a `fresh` step when it returns a vote,
and a `raise` step that changes nothing when it fails. -/
theorem step3_of_vote {m : EStateM Error (SafetyRules σ) Vote} {b : Block} {now : ℕ} {s : SafetyRules σ}
    (h : ⦃fun s' => ⌜s' = s⌝⦄ m ⦃post⟨fun v s' => ⌜Voted L.view s s' v ∧
      (Coherent L.view s → VoteOutcome3 env now b (stored L.view s) (stored L.view s') v)⌝,
      fun _ s' => ⌜Unchanged L.view s s'⌝⟩⦄)
    (hc : Coherent L.view s) :
    Coherent L.view (answer m .vote s).1 ∧
      Step3 env (stored L.view s) (stored L.view (answer m .vote s).1) (voteOf (answer m .vote s).2) := by
  rcases answer_of_triple SafetyRulesOutput.vote h with ⟨v, hv, hvoted, hout⟩ | ⟨e, he, hu⟩
  · rw [hv, voteOf_vote_ok]
    obtain ⟨hc', ha⟩ := hvoted.1 hc
    refine ⟨hc', ?_⟩
    -- a vote replays the last one or is fresh, and a fresh one is justified
    rcases hvoted.2 hc with ⟨hd, hlast⟩ | ⟨hlast, hve, hvr, hlt⟩
    · exact .replay hd hlast
    · rcases hout hc with ⟨hd, hlast'⟩ | hj
      · exact .replay hd hlast'
      · exact .fresh b now ha hlast hve hvr hlt hj
  · rw [he, voteOf_vote_error]
    exact ⟨(hu hc).1, .raise (Or.inl (hu hc).2)⟩

/-- **What one request of an honest 3-chain validator does**, from a state in the
invariant: the cache stays coherent, and the request is a `Step3` of the stored
data with the vote it returns. -/
theorem serve3_step (s : SafetyRules σ) (i : {i : SafetyRulesInput × ℕ // IsThreeChain i.1 = true})
    (hs : Invariant L.view s) :
    Coherent L.view (serve L.backend env IsThreeChain s i).1 ∧
      Step3 env (stored L.view s) (stored L.view (serve L.backend env IsThreeChain s i).1)
        (voteOf (serve L.backend env IsThreeChain s i).2.2) := by
  obtain ⟨⟨i, now⟩, hi⟩ := i
  have hc := hs.1
  simp only [serve]
  cases i with
  | consensusState =>
    exact step3_of_timedOut L env (by simp) hc (answer_fst_of_triple (guardedConsensusState_spec L s)
      (fun _ _ h => h.timedOut) (fun _ _ h => h.timedOut))
  | signProposal blockData =>
    exact step3_of_timedOut L env (by simp) hc
      (answer_fst_of_triple (guardedSignProposal_spec L blockData s)
        (fun _ _ h => h.timedOut) (fun _ _ h => h.timedOut))
  | signTimeout timeout =>
    exact step3_of_timedOut L env (by simp) hc (answer_fst_of_triple (guardedSignTimeout_spec L timeout s)
      (fun _ _ => id) (fun _ _ => id))
  | signTimeoutWithQc timeout tc =>
    exact step3_of_timedOut L env (by simp) hc
      (answer_fst_of_triple (guardedSignTimeoutWithQc_spec L timeout tc s)
        (fun _ _ h => h.1) (fun _ _ => id))
  | init proof =>
    have h : Initialized L.view s (answer (guardedInitialize L.backend env proof) .init s).1 :=
      answer_fst_of_triple (guardedInitialize_spec L proof s) (fun _ _ => id) (fun _ _ => id)
    simp only [handleMessage]
    rw [voteOf_answer (by simp)]
    obtain ⟨hc', hd⟩ := h hc
    rcases hd with hd | hd
    · exact ⟨hc', .raise (Or.inl hd)⟩
    · exact ⟨hc', .reset hd⟩
  | constructAndSignVote proposal =>
    exact step3_of_vote L env (guardedConstructAndSignVote_spec L proposal now s) hc
  | constructAndSignVoteTwoChain proposal tc => exact absurd hi (by simp [IsThreeChain])
  | signCommitVote ledgerInfo newLedgerInfo => exact absurd hi (by simp [IsThreeChain])

/-! ## Whole runs -/

/-- The state invariant of an honest 3-chain validator. -/
def Invariant3 (s : SafetyRules σ) : Prop :=
  Invariant L.view s ∧ LastVoteLocked env (stored L.view s)

theorem serve3_invariant (s : SafetyRules σ) (i : {i : SafetyRulesInput × ℕ // IsThreeChain i.1 = true})
    (hs : Invariant3 L env s) : Invariant3 L env (serve L.backend env IsThreeChain s i).1 := by
  obtain ⟨hc', hstep⟩ := serve3_step L env s i hs.1
  exact ⟨⟨hc', hstep.lastVoteConsistent hs.1.2⟩, hstep.lastVoteLocked hs.2⟩

/-- **The locking of an honest 3-chain validator.** In every run from a fresh state,
every vote in the log is backed, and any two votes in it satisfy `Locks3`. -/
theorem serve3_locks {s : SafetyRules σ} {log : List Entry}
    (h : Reachable (Fresh L.view) (serve L.backend env IsThreeChain) s log) :
    (∀ v, VoteIn log v → Backed3 env v) ∧ ∀ v w, VoteIn log v → VoteIn log w → Locks3 env v w := by
  -- the state remembers every vote of the log through `Compat3`
  let C (s : SafetyRules σ) (e : Entry) : Prop := ∀ v, voteOf e.2 = some v → Compat3 env (stored L.view s) v
  let R (e e' : Entry) : Prop := ∀ v w, voteOf e.2 = some v → voteOf e'.2 = some w → Locks3 env v w
  have h0 (s : SafetyRules σ) (hs : Fresh L.view s) : Invariant3 L env s :=
    ⟨hs.1, fun w hw => by rw [hs.2] at hw; cases hw⟩
  have hkeep (s : SafetyRules σ) (i : {i : SafetyRulesInput × ℕ // IsThreeChain i.1 = true})
      (e : Entry) (hs : Invariant3 L env s) (he : C s e) : C (serve L.backend env IsThreeChain s i).1 e :=
    fun v hv => (serve3_step L env s i hs.1).2.compat (he v hv)
  have hnew (s : SafetyRules σ) (i : {i : SafetyRulesInput × ℕ // IsThreeChain i.1 = true})
      (hs : Invariant3 L env s) :
      C (serve L.backend env IsThreeChain s i).1 (serve L.backend env IsThreeChain s i).2 := by
    intro v hv
    have hstep := (serve3_step L env s i hs.1).2
    rw [hv] at hstep
    exact hstep.compat_new hs.1.2 hs.2
  have hself (s : SafetyRules σ) (i : {i : SafetyRulesInput × ℕ // IsThreeChain i.1 = true})
      (_ : Invariant3 L env s) :
      R (serve L.backend env IsThreeChain s i).2 (serve L.backend env IsThreeChain s i).2 := by
    intro v w hv hw
    rw [hv] at hw
    cases hw
    exact locks3_self v
  have hold (s : SafetyRules σ) (i : {i : SafetyRulesInput × ℕ // IsThreeChain i.1 = true})
      (e : Entry) (hs : Invariant3 L env s) (he : C s e) :
      R e (serve L.backend env IsThreeChain s i).2 ∧ R (serve L.backend env IsThreeChain s i).2 e := by
    have hstep := (serve3_step L env s i hs.1).2
    constructor
    · intro u v hu hv
      rw [hv] at hstep
      exact (hstep.locks hs.1.2 (he u hu)).1
    · intro v u hv hu
      rw [hv] at hstep
      exact (hstep.locks hs.1.2 (he u hu)).2
  obtain ⟨-, hC, hR⟩ := h.pairwise (Invariant3 L env) C R h0 (serve3_invariant L env) hkeep hnew
    hself hold
  refine ⟨fun v ⟨e, he, hv⟩ => (hC e he v hv).2.1, fun v w ⟨e, he, hv⟩ ⟨e', he', hw⟩ => ?_⟩
  exact hR e he e' he' v w hv hw

/-- The votes of an honest 3-chain validator satisfy what every honest vote does. -/
theorem serve3_honestVotes {s : SafetyRules σ} {log : List Entry}
    (h : Reachable (Fresh L.view) (serve L.backend env IsThreeChain) s log) : HonestVotes env log := by
  obtain ⟨hbacked, hlocks⟩ := serve3_locks L env h
  refine ⟨fun v w hv hw he hr => (hlocks v w hv hw).1 he hr, fun v hv => ?_, fun v hv => ?_⟩
  · obtain ⟨b, now, hchecked, -⟩ := hbacked v hv
    exact ⟨b, now, hchecked⟩
  · obtain ⟨b, now, -, hli⟩ := hbacked v hv
    exact (constructLedgerInfo_eq_ok hli).1

end SafetyRules

end Dijets.Consensus
