import Mathlib
import Dijets.Consensus.Honest

/-!
# The locking of an honest 2-chain validator

The 2-chain protocol locks with timeouts instead of a preferred round. A vote for
a block whose certificate certifies round `r` raises the one-chain round to at
least `r`, and `safe_to_timeout` signs no later timeout whose own certificate is
older than that. A timeout signed before the vote is of a lower round, since the
vote had to be above the last voted round the timeout left. So, over a whole run
of an honest validator, every 2-chain timeout of a vote's epoch and not of an
earlier round carries a certificate not older than the vote's parent
(`Locks2`). That, and that every vote is `Backed2` (cast for a checked proposal
that was safe to vote, over a 2-chain ledger info), is what the safety of the
protocol needs from each honest validator.

The argument is again an instance of `Reachable.pairwise`. `Step2` says once
what one request does to the stored data, with the vote and the timeout it
returns; the state remembers a vote through `Compat2` (its parent is below the
one-chain round) and a timeout through `TimeoutKept` (its round is below the last
voted round, and the last vote is locked with it).

## Main definitions

* `timeoutOf`, `TimeoutIn` — the 2-chain timeouts a log signed.
* `Backed2`, `Locks2` — what each vote satisfies, and each vote with each timeout.
* `Step2`, `serve2_step` — one request.
* `serve2_locks`, `serve2_honestVotes`, `serve2_epoch_le` — whole runs.
-/

set_option autoImplicit false

namespace Dijets.Consensus

open Std.Do Dijets.Lib

namespace SafetyRules

variable {σ : Type}

/-! ## The two 2-chain rules -/

/-- What `safe_to_vote` accepts: a block whose round follows its certificate's, or
follows the timeout certificate's with a certificate not older than the highest
one the timeout certificate reports. -/
theorem safeToVote_eq_ok {b : Block} {tc : Option TwoChainTimeoutCertificate}
    (h : safeToVote b tc = .ok ()) :
    b.round = b.quorumCert.certifiedBlock.round + 1 ∨
      (b.round = tc.elim 0 (·.round) + 1 ∧
        tc.elim 0 (·.highestHqcRound) ≤ b.quorumCert.certifiedBlock.round) := by
  unfold safeToVote at h
  rcases h0 : nextRound b.quorumCert.certifiedBlock.round with _ | r0
  · simp [h0, bind, Except.bind] at h
  obtain ⟨-, rfl⟩ := Iff.mp nextRound_eq_ok h0
  by_cases hq : b.round = b.quorumCert.certifiedBlock.round + 1
  · exact Or.inl hq
  right
  -- the timeout certificate's `next_round` is reached only when the first test fails
  rcases h1 : nextRound (tc.elim 0 (·.round)) with _ | r1
  · simp [h0, h1, hq, bind, Except.bind] at h
  obtain ⟨-, rfl⟩ := Iff.mp nextRound_eq_ok h1
  by_cases hr : b.round = tc.elim 0 (·.round) + 1
  · by_cases hh : tc.elim 0 (·.highestHqcRound) ≤ b.quorumCert.certifiedBlock.round
    · exact ⟨hr, hh⟩
    · -- `simp` reads the failed test as the two rounds being equal, against `hq`
      simp [h0, h1, hr, hh, bind, Except.bind, pure, Except.pure] at h
      omega
  · simp [h0, h1, hq, hr, bind, Except.bind, pure, Except.pure] at h

/-- What `safe_to_timeout` accepts: a timeout whose round follows its certificate's
or the timeout certificate's, with a certificate not older than the one-chain
round. -/
theorem safeToTimeout_eq_ok {t : TwoChainTimeout} {tc : Option TwoChainTimeoutCertificate}
    {d : SafetyData} (h : safeToTimeout t tc d = .ok ()) :
    (t.round = t.hqcRound + 1 ∨ t.round = tc.elim 0 (·.round) + 1) ∧
      d.oneChainRound ≤ t.hqcRound := by
  unfold safeToTimeout at h
  rcases h0 : nextRound t.hqcRound with _ | r0
  · simp [h0, bind, Except.bind] at h
  obtain ⟨-, rfl⟩ := Iff.mp nextRound_eq_ok h0
  by_cases hq : t.round = t.hqcRound + 1
  · by_cases ho : d.oneChainRound ≤ t.hqcRound
    · exact ⟨Or.inl hq, ho⟩
    · simp [h0, hq, ho, bind, Except.bind, pure, Except.pure] at h
  rcases h1 : nextRound (tc.elim 0 (·.round)) with _ | r1
  · simp [h0, h1, hq, bind, Except.bind] at h
  obtain ⟨-, rfl⟩ := Iff.mp nextRound_eq_ok h1
  by_cases hr : t.round = tc.elim 0 (·.round) + 1
  · by_cases ho : d.oneChainRound ≤ t.hqcRound
    · exact ⟨Or.inr hr, ho⟩
    · simp [h0, h1, hr, ho, bind, Except.bind, pure, Except.pure] at h
  · simp [h0, h1, hq, hr, bind, Except.bind, pure, Except.pure] at h

/-! ## Timeouts in a log -/

/-- The 2-chain timeout an entry signed, if it is one. -/
def timeoutOf : Entry → Option TwoChainTimeout
  | (.signTimeoutWithQc t _, .signature (.ok _)) => some t
  | _ => none

/-- `t` is one of the 2-chain timeouts a log signed. -/
def TimeoutIn (log : List Entry) (t : TwoChainTimeout) : Prop := ∃ e ∈ log, timeoutOf e = some t

/-- No entry is both a vote and a timeout. -/
theorem timeoutOf_of_voteOf {e : Entry} {v : Vote} (h : voteOf e.2 = some v) : timeoutOf e = none := by
  obtain ⟨i, o⟩ := e
  cases o with
  | vote r => cases i <;> rfl
  | consensusState r => simp [voteOf] at h
  | init r => simp [voteOf] at h
  | signature r => simp [voteOf] at h

/-! ## What a vote and a timeout satisfy -/

/-- A 2-chain vote as an honest validator casts it: for a proposal whose checks
passed and which was safe to vote with a valid timeout certificate, signing the
2-chain ledger info of its vote data. -/
def Backed2 (env : Env) (v : Vote) : Prop :=
  ∃ b now tc, ProposalChecked env now b v ∧
    constructLedgerInfo2chain env b (env.hashVoteData v.voteData) = .ok v.ledgerInfo ∧
    safeToVote b tc = .ok () ∧ ∀ c, tc = some c → c.Valid env

/-- A vote and a timeout of one validator: a timeout of the vote's epoch and not of
an earlier round carries a certificate not older than the vote's parent. -/
def Locks2 (v : Vote) (t : TwoChainTimeout) : Prop :=
  v.epoch = t.epoch → v.round ≤ t.round → v.voteData.parent.round ≤ t.hqcRound

/-- The last vote was backed, and its parent is below the one-chain round. -/
def LastVote2 (env : Env) (d : SafetyData) : Prop :=
  ∀ w, d.lastVote = some w → Backed2 env w ∧ w.voteData.parent.round ≤ d.oneChainRound

/-- A vote returned earlier, as the stored data `d` remembers it: compatible as for
equivocation, backed, and, in `d`'s epoch, with a parent below the one-chain round. -/
def Compat2 (env : Env) (d : SafetyData) (v : Vote) : Prop :=
  VoteCompatible d v ∧ Backed2 env v ∧
    (v.epoch = d.epoch → v.voteData.parent.round ≤ d.oneChainRound)

/-- A timeout signed earlier, as the stored data `d` remembers it: of no later
epoch, and, in `d`'s epoch, of a round below the last voted round and locked with
the last vote. -/
def TimeoutKept (d : SafetyData) (t : TwoChainTimeout) : Prop :=
  t.epoch ≤ d.epoch ∧
    (t.epoch = d.epoch → t.round ≤ d.lastVotedRound ∧ ∀ w, d.lastVote = some w → Locks2 w t)

/-- What one request of an honest 2-chain validator does to the stored data `d`,
leaving `d'`, with the vote and the timeout it returns, if any. -/
inductive Step2 (env : Env) (d d' : SafetyData) : Option Vote → Option TwoChainTimeout → Prop
  /-- the last vote again, with nothing written -/
  | replay {v : Vote} : d' = d → d.lastVote = some v → Step2 env d d' (some v) none
  /-- a fresh vote for the block `b` with the timeout certificate `tc`, recorded as
  the last vote -/
  | fresh {v : Vote} (b : Block) (now : ℕ) (tc : Option TwoChainTimeoutCertificate) :
      Advances d d' → d'.lastVote = some v → v.epoch = d.epoch → v.round = d'.lastVotedRound →
      d.lastVotedRound < v.round → Justified2 env now b tc d d' v → Step2 env d d' (some v) none
  /-- a signed 2-chain timeout, at most raising the last voted round -/
  | timeout {t : TwoChainTimeout} (tc : Option TwoChainTimeoutCertificate) : Raises d d' →
      TimeoutJustified env t tc d d' → Step2 env d d' none (some t)
  /-- nothing signed, and at most the last voted round raised -/
  | raise : Raises d d' → Step2 env d d' none none
  /-- nothing signed, and a newer epoch started by `initialize` -/
  | reset : Resets d d' → Step2 env d d' none none

/-- Two entries of one honest 2-chain log agree: two votes of one epoch and round
are equal, and a vote of the first is locked with a timeout of the second. -/
def Agree2 (e e' : Entry) : Prop :=
  (∀ v w, voteOf e.2 = some v → voteOf e'.2 = some w → v.epoch = w.epoch → v.round = w.round →
    v = w) ∧
  ∀ v t, voteOf e.2 = some v → timeoutOf e' = some t → Locks2 v t

/-- An entry of the log, as the stored data `d` remembers it. -/
def Kept2 (env : Env) (d : SafetyData) (e : Entry) : Prop :=
  (∀ v, voteOf e.2 = some v → Compat2 env d v) ∧ ∀ t, timeoutOf e = some t → TimeoutKept d t

section Data

variable {env : Env}

/-! ## What a fresh vote and a signed timeout leave -/

theorem Justified2.backed {now : ℕ} {b : Block} {tc : Option TwoChainTimeoutCertificate}
    {d d' : SafetyData} {v : Vote} (h : Justified2 env now b tc d d' v) : Backed2 env v :=
  ⟨b, now, tc, h.checked, h.ledgerInfo, h.safe, h.tc_valid⟩

/-- A fresh vote's parent is below the one-chain round it leaves. -/
theorem Justified2.parent_le {now : ℕ} {b : Block} {tc : Option TwoChainTimeoutCertificate}
    {d d' : SafetyData} {v : Vote} (h : Justified2 env now b tc d d' v) :
    v.voteData.parent.round ≤ d'.oneChainRound := by
  rw [h.checked.parent, h.oneChainRound_eq]
  exact Nat.le_max_right _ _

/-- A signed timeout's certificate is not older than the one-chain round. -/
theorem TimeoutJustified.oneChainRound_le {t : TwoChainTimeout}
    {tc : Option TwoChainTimeoutCertificate} {d d' : SafetyData}
    (h : TimeoutJustified env t tc d d') : d.oneChainRound ≤ t.hqcRound :=
  (safeToTimeout_eq_ok h.safe).2

/-! ## What the stored data remembers, across any advance -/

theorem LastVote2.raises {d d' : SafetyData} (hl : LastVote2 env d) (hr : Raises d d') :
    LastVote2 env d' := by
  intro w hw
  rw [hr.lastVote] at hw
  obtain ⟨hb, hp⟩ := hl w hw
  exact ⟨hb, Nat.le_trans hp hr.advances.2.2.2.1⟩

theorem Compat2.advances {d d' : SafetyData} {u : Vote} (hu : Compat2 env d u)
    (ha : Advances d d') : Compat2 env d' u :=
  ⟨hu.1.advances ha, hu.2.1, fun he => Nat.le_trans (hu.2.2 (he.trans ha.1)) ha.2.2.2.1⟩

theorem Compat2.resets {d d' : SafetyData} {u : Vote} (hu : Compat2 env d u) (hr : Resets d d') :
    Compat2 env d' u := by
  refine ⟨hu.1.resets hr, hu.2.1, fun he => ?_⟩
  have := Nat.lt_of_le_of_lt hu.1.1 hr.1
  omega

/-- A remembered timeout stays remembered across an advance: a new last vote is
above the last voted round, so above the timeout's round. -/
theorem TimeoutKept.advances {d d' : SafetyData} {t : TwoChainTimeout} (ht : TimeoutKept d t)
    (ha : Advances d d') : TimeoutKept d' t := by
  obtain ⟨he, hl, -, -, hv⟩ := ha
  refine ⟨he ▸ ht.1, fun hte => ?_⟩
  obtain ⟨hround, hlock⟩ := ht.2 (hte.trans he)
  refine ⟨Nat.le_trans hround hl, fun w hw => ?_⟩
  rcases hv with hv | ⟨v, hv', hve, -, hlt⟩
  · exact hlock w (hv ▸ hw)
  · rw [hv'] at hw
    cases hw
    intro _ hr
    omega

theorem TimeoutKept.resets {d d' : SafetyData} {t : TwoChainTimeout} (ht : TimeoutKept d t)
    (hr : Resets d d') : TimeoutKept d' t := by
  refine ⟨Nat.le_of_lt (Nat.lt_of_le_of_lt ht.1 hr.1), fun he => ?_⟩
  have := Nat.lt_of_le_of_lt ht.1 hr.1
  omega

/-! ## One step, on the stored data -/

/-- Every step advances the stored data, or resets it for a newer epoch. -/
theorem Step2.advances_or_resets {d d' : SafetyData} {ov : Option Vote}
    {ot : Option TwoChainTimeout} (h : Step2 env d d' ov ot) : Advances d d' ∨ Resets d d' := by
  cases h with
  | replay hd _ => exact Or.inl (hd ▸ Advances.refl d)
  | fresh _ _ _ ha => exact Or.inl ha
  | timeout _ hr _ => exact Or.inl hr.advances
  | raise hr => exact Or.inl hr.advances
  | reset hr => exact Or.inr hr

theorem Step2.epoch_le {d d' : SafetyData} {ov : Option Vote} {ot : Option TwoChainTimeout}
    (h : Step2 env d d' ov ot) : d.epoch ≤ d'.epoch := by
  rcases h.advances_or_resets with ha | hr
  · exact Nat.le_of_eq ha.1.symm
  · exact Nat.le_of_lt hr.1

/-- A timeout is signed in the stored epoch. -/
theorem Step2.timeout_epoch {d d' : SafetyData} {ov : Option Vote} {t : TwoChainTimeout}
    (h : Step2 env d d' ov (some t)) : t.epoch = d.epoch := by
  cases h with
  | timeout _ _ hj => exact hj.epoch

/-- A vote a step returns is a `VoteOutcome` of it. -/
theorem Step2.voteOutcome {d d' : SafetyData} {v : Vote} {ot : Option TwoChainTimeout}
    (h : Step2 env d d' (some v) ot) : VoteOutcome d d' v := by
  cases h with
  | replay hd hv => exact Or.inl ⟨hd, hv⟩
  | fresh _ _ _ _ hv hve hvr hlt => exact Or.inr ⟨hv, hve, hvr, hlt⟩

theorem Step2.lastVoteConsistent {d d' : SafetyData} {ov : Option Vote}
    {ot : Option TwoChainTimeout} (h : Step2 env d d' ov ot) (hl : LastVoteConsistent d) :
    LastVoteConsistent d' := by
  rcases h.advances_or_resets with ha | hr
  · exact ha.lastVoteConsistent hl
  · exact hr.lastVoteConsistent

theorem Step2.lastVote2 {d d' : SafetyData} {ov : Option Vote} {ot : Option TwoChainTimeout}
    (h : Step2 env d d' ov ot) (hl : LastVote2 env d) : LastVote2 env d' := by
  cases h with
  | replay hd _ => exact hd ▸ hl
  | fresh _ _ _ _ hv _ _ _ hj =>
    intro w hw
    rw [hv] at hw
    cases hw
    exact ⟨hj.backed, hj.parent_le⟩
  | timeout _ hr _ => exact hl.raises hr
  | raise hr => exact hl.raises hr
  | reset hr =>
    intro w hw
    rw [hr.2] at hw
    cases hw

/-- An entry of the log stays remembered across a step. -/
theorem Step2.kept {d d' : SafetyData} {ov : Option Vote} {ot : Option TwoChainTimeout}
    (h : Step2 env d d' ov ot) {e : Entry} (he : Kept2 env d e) : Kept2 env d' e := by
  rcases h.advances_or_resets with ha | hr
  · exact ⟨fun v hv => (he.1 v hv).advances ha, fun t ht => (he.2 t ht).advances ha⟩
  · exact ⟨fun v hv => (he.1 v hv).resets hr, fun t ht => (he.2 t ht).resets hr⟩

/-- The vote a step returns is remembered by the data it leaves. -/
theorem Step2.compat_new {d d' : SafetyData} {v : Vote} {ot : Option TwoChainTimeout}
    (h : Step2 env d d' (some v) ot) (hl : LastVoteConsistent d) (hl2 : LastVote2 env d) :
    Compat2 env d' v := by
  cases h with
  | replay hd hv =>
    subst hd
    exact ⟨VoteOutcome.compatible (Or.inl ⟨rfl, hv⟩) (Advances.refl _) hl, (hl2 v hv).1,
      fun _ => (hl2 v hv).2⟩
  | fresh _ _ _ ha hv hve hvr hlt hj =>
    exact ⟨VoteOutcome.compatible (Or.inr ⟨hv, hve, hvr, hlt⟩) ha hl, hj.backed,
      fun _ => hj.parent_le⟩

/-- The timeout a step signs is remembered by the data it leaves: the last vote,
unchanged, has its parent below the one-chain round the timeout was checked
against. -/
theorem Step2.timeoutKept_new {d d' : SafetyData} {ov : Option Vote} {t : TwoChainTimeout}
    (h : Step2 env d d' ov (some t)) (hl2 : LastVote2 env d) : TimeoutKept d' t := by
  cases h with
  | timeout _ hr hj =>
    have he : d'.epoch = d.epoch := hr.advances.1
    refine ⟨Nat.le_of_eq (hj.epoch.trans he.symm), fun _ => ⟨hj.round_le, fun w hw => ?_⟩⟩
    rw [hr.lastVote] at hw
    intro _ _
    exact Nat.le_trans (hl2 w hw).2 hj.oneChainRound_le

/-- The entry a step adds is remembered by the data it leaves. -/
theorem Step2.kept_new {d d' : SafetyData} {n : Entry}
    (h : Step2 env d d' (voteOf n.2) (timeoutOf n)) (hl : LastVoteConsistent d)
    (hl2 : LastVote2 env d) : Kept2 env d' n := by
  refine ⟨fun v hv => ?_, fun t ht => ?_⟩
  · rw [hv] at h
    exact h.compat_new hl hl2
  · rw [ht] at h
    exact h.timeoutKept_new hl2

/-! ## One step, on pairs of entries -/

/-- The vote a step returns is locked with every remembered timeout: a replayed
last vote by what the timeout remembers, a fresh one because it is of a later
round. -/
theorem Step2.locks_of_kept {d d' : SafetyData} {v : Vote} {ot : Option TwoChainTimeout}
    (h : Step2 env d d' (some v) ot) (hl : LastVoteConsistent d) {t : TwoChainTimeout}
    (ht : TimeoutKept d t) : Locks2 v t := by
  intro he hr
  cases h with
  | replay _ hv =>
    have hte : t.epoch = d.epoch := he.symm.trans (hl v hv).1
    exact (ht.2 hte).2 v hv he hr
  | fresh _ _ _ _ _ hve _ hlt =>
    have := (ht.2 (he.symm.trans hve)).1
    omega

/-- Every remembered vote is locked with the timeout a step signs. -/
theorem Step2.locks_of_compat {d d' : SafetyData} {ov : Option Vote} {t : TwoChainTimeout}
    (h : Step2 env d d' ov (some t)) {u : Vote} (hu : Compat2 env d u) : Locks2 u t := by
  intro he _
  cases h with
  | timeout _ _ hj => exact Nat.le_trans (hu.2.2 (he.trans hj.epoch)) hj.oneChainRound_le

/-- The entry a step adds agrees, both ways, with every entry the data remembers. -/
theorem Step2.agree {d d' : SafetyData} {n e : Entry}
    (h : Step2 env d d' (voteOf n.2) (timeoutOf n)) (hl : LastVoteConsistent d)
    (he : Kept2 env d e) : Agree2 e n ∧ Agree2 n e := by
  refine ⟨⟨fun u v hu hv hep hr => ?_, fun u t hu ht => ?_⟩,
    ⟨fun v u hv hu hep hr => ?_, fun v t hv ht => ?_⟩⟩
  · rw [hv] at h
    exact h.voteOutcome.eq_of_compatible hl (he.1 u hu).1 hep hr
  · rw [ht] at h
    exact h.locks_of_compat (he.1 u hu)
  · rw [hv] at h
    exact (h.voteOutcome.eq_of_compatible hl (he.1 u hu).1 hep.symm hr.symm).symm
  · rw [hv] at h
    exact h.locks_of_kept hl (he.2 t ht)

theorem agree2_self (n : Entry) : Agree2 n n := by
  refine ⟨fun v w hv hw _ _ => ?_, fun v t hv ht => ?_⟩
  · rw [hv] at hw
    exact Option.some.inj hw
  · rw [timeoutOf_of_voteOf hv] at ht
    cases ht

end Data

/-! ## One request -/

variable (L : LawfulStorage σ) (env : Env)

/-- A request that signs neither a vote nor a 2-chain timeout and at most raises the
last voted round is a `raise` step. -/
theorem step2_of_timedOut {α : Type} {m : EStateM Error (SafetyRules σ) α}
    {wrap : Except Error α → SafetyRulesOutput} (hwrap : ∀ r v, wrap r ≠ .vote v)
    {i : SafetyRulesInput} (hi : ∀ o, timeoutOf (i, o) = none) {s : SafetyRules σ}
    (hc : Coherent L.view s) (h : TimedOut L.view s (answer m wrap s).1) :
    Coherent L.view (answer m wrap s).1 ∧
      Step2 env (stored L.view s) (stored L.view (answer m wrap s).1) (voteOf (answer m wrap s).2)
        (timeoutOf (i, (answer m wrap s).2)) := by
  rw [voteOf_answer hwrap, hi]
  exact ⟨(h hc).1, .raise (h hc).2⟩

/-- A 2-chain timeout request is a `timeout` step when it signs, and a `raise` step
when it fails. -/
theorem step2_of_timeout (t : TwoChainTimeout) (tc : Option TwoChainTimeoutCertificate)
    {s : SafetyRules σ} (hc : Coherent L.view s) :
    Coherent L.view (answer (guardedSignTimeoutWithQc L.backend env t tc) .signature s).1 ∧
      Step2 env (stored L.view s)
        (stored L.view (answer (guardedSignTimeoutWithQc L.backend env t tc) .signature s).1)
        (voteOf (answer (guardedSignTimeoutWithQc L.backend env t tc) .signature s).2)
        (timeoutOf (.signTimeoutWithQc t tc,
          (answer (guardedSignTimeoutWithQc L.backend env t tc) .signature s).2)) := by
  rcases answer_of_triple SafetyRulesOutput.signature (guardedSignTimeoutWithQc_spec L t tc s) with
    ⟨sig, hsig, hto, hj⟩ | ⟨e, he, hto⟩
  · rw [hsig]
    exact ⟨(hto hc).1, .timeout tc (hto hc).2 (hj hc)⟩
  · rw [he]
    exact ⟨(hto hc).1, .raise (hto hc).2⟩

/-- A 2-chain vote request is a `replay` or a `fresh` step when it returns a vote,
and a `raise` step that changes nothing when it fails. -/
theorem step2_of_vote {m : EStateM Error (SafetyRules σ) Vote} {b : Block}
    {tc : Option TwoChainTimeoutCertificate} {now : ℕ} {i : SafetyRulesInput}
    (hi : ∀ o, timeoutOf (i, o) = none) {s : SafetyRules σ}
    (h : ⦃fun s' => ⌜s' = s⌝⦄ m ⦃post⟨fun v s' => ⌜Voted L.view s s' v ∧
      (Coherent L.view s → VoteOutcome2 env now b tc (stored L.view s) (stored L.view s') v)⌝,
      fun _ s' => ⌜Unchanged L.view s s'⌝⟩⦄)
    (hc : Coherent L.view s) :
    Coherent L.view (answer m .vote s).1 ∧
      Step2 env (stored L.view s) (stored L.view (answer m .vote s).1) (voteOf (answer m .vote s).2)
        (timeoutOf (i, (answer m .vote s).2)) := by
  rw [hi]
  rcases answer_of_triple SafetyRulesOutput.vote h with ⟨v, hv, hvoted, hout⟩ | ⟨e, he, hu⟩
  · rw [hv, voteOf_vote_ok]
    obtain ⟨hc', ha⟩ := hvoted.1 hc
    refine ⟨hc', ?_⟩
    -- a vote replays the last one or is fresh, and a fresh one is justified
    rcases hvoted.2 hc with ⟨hd, hlast⟩ | ⟨hlast, hve, hvr, hlt⟩
    · exact .replay hd hlast
    · rcases hout hc with ⟨hd, hlast'⟩ | hj
      · exact .replay hd hlast'
      · exact .fresh b now tc ha hlast hve hvr hlt hj
  · rw [he, voteOf_vote_error]
    exact ⟨(hu hc).1, .raise (Or.inl (hu hc).2)⟩

/-- **What one request of an honest 2-chain validator does**, from a state in the
invariant: the cache stays coherent, and the request is a `Step2` of the stored
data with the vote and the timeout it returns. -/
theorem serve2_step (s : SafetyRules σ) (i : {i : SafetyRulesInput × ℕ // IsTwoChain i.1 = true})
    (hs : Invariant L.view s) :
    Coherent L.view (serve L.backend env IsTwoChain s i).1 ∧
      Step2 env (stored L.view s) (stored L.view (serve L.backend env IsTwoChain s i).1)
        (voteOf (serve L.backend env IsTwoChain s i).2.2) (timeoutOf (serve L.backend env IsTwoChain s i).2) := by
  obtain ⟨⟨i, now⟩, hi⟩ := i
  have hc := hs.1
  simp only [serve]
  cases i with
  | consensusState =>
    exact step2_of_timedOut L env (by simp) (fun _ => rfl) hc
      (answer_fst_of_triple (guardedConsensusState_spec L s)
        (fun _ _ h => h.timedOut) (fun _ _ h => h.timedOut))
  | signProposal blockData =>
    exact step2_of_timedOut L env (by simp) (fun _ => rfl) hc
      (answer_fst_of_triple (guardedSignProposal_spec L blockData s)
        (fun _ _ h => h.timedOut) (fun _ _ h => h.timedOut))
  | signTimeout timeout =>
    exact step2_of_timedOut L env (by simp) (fun _ => rfl) hc
      (answer_fst_of_triple (guardedSignTimeout_spec L timeout s) (fun _ _ => id) (fun _ _ => id))
  | signTimeoutWithQc timeout tc => exact step2_of_timeout L env timeout tc hc
  | init proof =>
    have h : Initialized L.view s (answer (guardedInitialize L.backend env proof) .init s).1 :=
      answer_fst_of_triple (guardedInitialize_spec L proof s) (fun _ _ => id) (fun _ _ => id)
    simp only [handleMessage]
    rw [voteOf_answer (by simp)]
    obtain ⟨hc', hd⟩ := h hc
    rcases hd with hd | hd
    · exact ⟨hc', .raise (Or.inl hd)⟩
    · exact ⟨hc', .reset hd⟩
  | constructAndSignVoteTwoChain proposal tc =>
    exact step2_of_vote L env (fun _ => rfl)
      (guardedConstructAndSignVoteTwoChain_spec L proposal tc now s) hc
  | constructAndSignVote proposal => exact absurd hi (by simp [IsTwoChain])
  | signCommitVote ledgerInfo newLedgerInfo => exact absurd hi (by simp [IsTwoChain])

/-! ## Whole runs -/

/-- The state invariant of an honest 2-chain validator. -/
def Invariant2 (s : SafetyRules σ) : Prop :=
  Invariant L.view s ∧ LastVote2 env (stored L.view s)

theorem Fresh.invariant2 {s : SafetyRules σ} (hs : Fresh L.view s) : Invariant2 L env s :=
  ⟨hs.1, fun w hw => by rw [hs.2] at hw; cases hw⟩

theorem serve2_invariant (s : SafetyRules σ) (i : {i : SafetyRulesInput × ℕ // IsTwoChain i.1 = true})
    (hs : Invariant2 L env s) : Invariant2 L env (serve L.backend env IsTwoChain s i).1 := by
  obtain ⟨hc', hstep⟩ := serve2_step L env s i hs.1
  exact ⟨⟨hc', hstep.lastVoteConsistent hs.1.2⟩, hstep.lastVote2 hs.2⟩

/-- **The locking of an honest 2-chain validator.** In every run from a fresh state,
every vote in the log is backed, two votes of one epoch and round are equal,
every vote is locked with every timeout, and no timeout is of an epoch after the
final one. -/
theorem serve2_locks {s : SafetyRules σ} {log : List Entry}
    (h : Reachable (Fresh L.view) (serve L.backend env IsTwoChain) s log) :
    (∀ v, VoteIn log v → Backed2 env v) ∧
      (∀ v w, VoteIn log v → VoteIn log w → v.epoch = w.epoch → v.round = w.round → v = w) ∧
      (∀ v t, VoteIn log v → TimeoutIn log t → Locks2 v t) ∧
      ∀ t, TimeoutIn log t → t.epoch ≤ (stored L.view s).epoch := by
  -- the state remembers every entry of the log through `Kept2`
  obtain ⟨-, hK, hA⟩ := h.pairwise (Invariant2 L env) (fun s e => Kept2 env (stored L.view s) e)
    Agree2 (fun s hs => hs.invariant2 L env) (serve2_invariant L env)
    (fun s i _ hs he => (serve2_step L env s i hs.1).2.kept he)
    (fun s i hs => (serve2_step L env s i hs.1).2.kept_new hs.1.2 hs.2)
    (fun s i _ => agree2_self _)
    (fun s i e hs he => (serve2_step L env s i hs.1).2.agree hs.1.2 he)
  refine ⟨fun v ⟨e, he, hv⟩ => ((hK e he).1 v hv).2.1,
    fun v w ⟨e, he, hv⟩ ⟨e', he', hw⟩ => (hA e he e' he').1 v w hv hw,
    fun v t ⟨e, he, hv⟩ ⟨e', he', ht⟩ => (hA e he e' he').2 v t hv ht,
    fun t ⟨e, he, ht⟩ => ((hK e he).2 t ht).1⟩

/-- The votes of an honest 2-chain validator satisfy what every honest vote does. -/
theorem serve2_honestVotes {s : SafetyRules σ} {log : List Entry}
    (h : Reachable (Fresh L.view) (serve L.backend env IsTwoChain) s log) : HonestVotes env log := by
  obtain ⟨hbacked, hunique, -, -⟩ := serve2_locks L env h
  refine ⟨hunique, fun v hv => ?_, fun v hv => ?_⟩
  · obtain ⟨b, now, -, hchecked, -⟩ := hbacked v hv
    exact ⟨b, now, hchecked⟩
  · obtain ⟨b, now, -, -, hli, -⟩ := hbacked v hv
    exact (constructLedgerInfo2chain_eq_ok hli).1

/-- In a run from a state of epoch at least `e`, every timeout is of epoch at least
`e`: it is signed in the stored epoch, which never decreases. -/
theorem serve2_epoch_le {e : ℕ} {s : SafetyRules σ} {log : List Entry}
    (h : Reachable (fun s => Fresh L.view s ∧ e ≤ (stored L.view s).epoch)
      (serve L.backend env IsTwoChain) s log) :
    ∀ t, TimeoutIn log t → e ≤ t.epoch := by
  have hall := h.forall_mem (fun s => Invariant2 L env s ∧ e ≤ (stored L.view s).epoch)
    (fun n => ∀ t, timeoutOf n = some t → e ≤ t.epoch)
    (fun s hs => ⟨hs.1.invariant2 L env, hs.2⟩)
    (fun s i hs => ⟨serve2_invariant L env s i hs.1,
      Nat.le_trans hs.2 (serve2_step L env s i hs.1.1).2.epoch_le⟩)
    (fun s i hs t ht => by
      have hstep := (serve2_step L env s i hs.1.1).2
      rw [ht] at hstep
      rw [hstep.timeout_epoch]
      exact hs.2)
  intro t ⟨n, hn, ht⟩
  exact hall n hn t ht

end SafetyRules

end Dijets.Consensus
