import Dijets.Consensus.Verify

/-!
# What the checks of `consensus-types` guarantee

The checks of `Verify` read off as facts about the certificate or block that
passed them. A quorum certificate that verifies has the hash of its vote data
in its ledger info and is either the unsigned genesis certificate of round 0 or
carries signatures the validator verifier accepts over vote data whose parent is
an earlier block of the same epoch. A timeout certificate that verifies reports
as its highest round the largest round any of its signers signed, and every one
of those signatures is valid. A well-formed block has a parent of an earlier
round in its own epoch.

`QuorumCert.Valid` and `TwoChainTimeoutCertificate.Valid` say that a certificate
verifies against some validator set. SafetyRules checks certificates against
the validator set of its current epoch; the facts the safety of a protocol run
needs do not depend on which set that was, only on what the verifier accepts.
-/

set_option autoImplicit false

namespace Dijets.Consensus

variable (env : Env)

/-- A quorum certificate that verifies against some validator set. -/
def QuorumCert.Valid (qc : QuorumCert) : Prop :=
  ∃ validator, qc.verify env validator = .ok ()

/-- A timeout certificate that verifies against some validator set. -/
def TwoChainTimeoutCertificate.Valid (tc : TwoChainTimeoutCertificate) : Prop :=
  ∃ validators, tc.verify env validators = .ok ()

variable {env}

/-! ## `Except` steps -/

theorem except_bind_eq_ok {ε α β : Type} {x : Except ε α} {f : α → Except ε β} {b : β} :
    x >>= f = .ok b ↔ ∃ a, x = .ok a ∧ f a = .ok b := by
  cases x <;> simp [bind, Except.bind]

theorem ensure_bind_eq_ok {β : Type} {c : Bool} {msg : String} {f : Unit → Except String β} {b : β} :
    ensure c msg >>= f = .ok b ↔ c = true ∧ f () = .ok b := by
  rw [except_bind_eq_ok]
  constructor
  · rintro ⟨⟨⟩, hc, hf⟩
    exact ⟨(ensure_eq_ok c msg).mp hc, hf⟩
  · rintro ⟨hc, hf⟩
    exact ⟨(), (ensure_eq_ok c msg).mpr hc, hf⟩

/-! ## Vote data and blocks -/

/-- Vote data that verifies has a parent of an earlier round in the same epoch. -/
theorem VoteData.verify_eq_ok {d : VoteData} (h : d.verify = .ok ()) :
    d.parent.epoch = d.proposed.epoch ∧ d.parent.round < d.proposed.round := by
  simp only [VoteData.verify, ensure_bind_eq_ok, beq_iff_eq, decide_eq_true_eq] at h
  exact ⟨h.1, h.2.1⟩

/-- A well-formed block's certificate certifies an earlier block of its epoch. -/
theorem Block.verifyWellFormed_eq_ok {b : Block} {currentTs : ℕ}
    (h : b.verifyWellFormed env currentTs = .ok ()) :
    b.quorumCert.certifiedBlock.round < b.round ∧
      b.quorumCert.certifiedBlock.epoch = b.epoch := by
  simp only [Block.verifyWellFormed, ensure_bind_eq_ok, Bool.not_eq_eq_eq_not, Bool.not_true,
    decide_eq_true_eq, beq_iff_eq] at h
  exact ⟨h.2.1, h.2.2.1⟩

/-! ## Quorum certificates -/

/-- **What a valid quorum certificate is.** Its ledger info carries the hash of
its vote data; of round 0 it is a genesis certificate, whose parent and commit are
the certified block itself; of any other round its signatures are accepted and
its vote data verifies. -/
theorem QuorumCert.verify_eq_ok {qc : QuorumCert} {validator : ValidatorVerifier}
    (h : qc.verify env validator = .ok ()) :
    qc.ledgerInfo.ledgerInfo.consensusDataHash = env.hashVoteData qc.voteData ∧
      (qc.certifiedBlock.round = 0 →
        qc.parentBlock = qc.certifiedBlock ∧ qc.certifiedBlock = qc.ledgerInfo.ledgerInfo.commitInfo) ∧
      (qc.certifiedBlock.round ≠ 0 →
        env.verifySignatures qc.ledgerInfo validator = .ok () ∧ qc.voteData.verify = .ok ()) := by
  unfold QuorumCert.verify at h
  simp only [ensure_bind_eq_ok, beq_iff_eq] at h
  obtain ⟨hhash, h⟩ := h
  refine ⟨hhash, fun h0 => ?_, fun h0 => ?_⟩
  · simp only [h0, ↓reduceIte, ensure_bind_eq_ok, beq_iff_eq] at h
    exact ⟨h.1, h.2.1⟩
  · simp only [h0, ↓reduceIte] at h
    split at h
    · cases h
    · rename_i heq
      exact ⟨heq, h⟩

/-- A valid certificate of a round other than 0 certifies a block whose parent is
of an earlier round of the same epoch. -/
theorem QuorumCert.Valid.parent {qc : QuorumCert} (h : qc.Valid env) (h0 : qc.certifiedBlock.round ≠ 0) :
    qc.parentBlock.epoch = qc.certifiedBlock.epoch ∧ qc.parentBlock.round < qc.certifiedBlock.round := by
  obtain ⟨validator, hv⟩ := h
  exact VoteData.verify_eq_ok ((QuorumCert.verify_eq_ok hv).2.2 h0).2

/-! ## Timeout certificates -/

/-- The signer loop succeeds only if every signature is valid, and then returns the
largest of its starting value and the signed rounds. -/
theorem TwoChainTimeoutCertificate.verifySigners_eq_ok {validators : ValidatorVerifier}
    {epoch round : ℕ} {signatures : List (Author × ℕ × Ed25519Signature)} {m n : ℕ}
    (h : TwoChainTimeoutCertificate.verifySigners env validators epoch round signatures m = .ok n) :
    m ≤ n ∧ ∀ x ∈ signatures, x.2.1 ≤ n ∧
      env.validatorVerify validators x.1
        (.timeoutSigningRepr { epoch := epoch, round := round, hqcRound := x.2.1 }) x.2.2 = .ok () := by
  induction signatures generalizing m with
  | nil =>
    simp only [TwoChainTimeoutCertificate.verifySigners, pure, Except.pure, Except.ok.injEq] at h
    exact ⟨Nat.le_of_eq h, by simp⟩
  | cons x rest ih =>
    obtain ⟨author, qcRound, signature⟩ := x
    simp only [TwoChainTimeoutCertificate.verifySigners] at h
    split at h
    · cases h
    · rename_i hsig
      obtain ⟨hle, hrest⟩ := ih h
      refine ⟨Nat.le_trans (Nat.le_max_left _ _) hle, ?_⟩
      intro y hy
      rcases List.mem_cons.mp hy with rfl | hy
      · exact ⟨Nat.le_trans (Nat.le_max_right _ _) hle, hsig⟩
      · exact hrest y hy

/-- The signer loop folds `max` over the signed rounds from its starting value. -/
theorem TwoChainTimeoutCertificate.verifySigners_eq_ok_foldl {validators : ValidatorVerifier}
    {epoch round : ℕ} {signatures : List (Author × ℕ × Ed25519Signature)} {m n : ℕ}
    (h : TwoChainTimeoutCertificate.verifySigners env validators epoch round signatures m = .ok n) :
    n = signatures.foldl (fun r x => max r x.2.1) m := by
  induction signatures generalizing m with
  | nil =>
    simp only [TwoChainTimeoutCertificate.verifySigners, pure, Except.pure, Except.ok.injEq] at h
    exact h.symm
  | cons x rest ih =>
    obtain ⟨author, qcRound, signature⟩ := x
    simp only [TwoChainTimeoutCertificate.verifySigners] at h
    split at h
    · cases h
    · exact ih h

/-- The checks `verify` makes, in order: the rounds, the timeout's own
certificate, the voting power, and a signer loop that ends at the timeout's
highest certified round. -/
theorem TwoChainTimeoutCertificate.verify_eq_ok_steps {tc : TwoChainTimeoutCertificate}
    {validators : ValidatorVerifier} (h : tc.verify env validators = .ok ()) :
    tc.timeout.hqcRound < tc.timeout.round ∧
      tc.timeout.quorumCert.verify env validators = .ok () ∧
      env.checkVotingPower validators (tc.signatures.map (·.1)) = .ok () ∧
      TwoChainTimeoutCertificate.verifySigners env validators tc.timeout.epoch tc.timeout.round
        tc.signatures 0 = .ok tc.timeout.hqcRound := by
  unfold TwoChainTimeoutCertificate.verify at h
  simp only [ensure_bind_eq_ok, decide_eq_true_eq] at h
  obtain ⟨hlt, h⟩ := h
  obtain ⟨⟨⟩, hqc, h⟩ := Iff.mp except_bind_eq_ok h
  obtain ⟨⟨⟩, hpower, h⟩ := Iff.mp except_bind_eq_ok h
  obtain ⟨signedRound, hsigners, h⟩ := Iff.mp except_bind_eq_ok h
  have heq : tc.timeout.hqcRound = signedRound := by
    simpa using (ensure_eq_ok _ _).mp h
  exact ⟨hlt, hqc, hpower, heq ▸ hsigners⟩

/-- **What a valid timeout certificate is.** Its highest certified round is below
its round, its own certificate is valid, its signers carry enough voting power,
each signature is valid for the signer's own round, and no signer signed a round
above the highest certified round. -/
theorem TwoChainTimeoutCertificate.verify_eq_ok {tc : TwoChainTimeoutCertificate}
    {validators : ValidatorVerifier} (h : tc.verify env validators = .ok ()) :
    tc.timeout.hqcRound < tc.timeout.round ∧
      tc.timeout.quorumCert.verify env validators = .ok () ∧
      env.checkVotingPower validators (tc.signatures.map (·.1)) = .ok () ∧
      ∀ x ∈ tc.signatures, x.2.1 ≤ tc.timeout.hqcRound ∧
        env.validatorVerify validators x.1
          (.timeoutSigningRepr ⟨tc.timeout.epoch, tc.timeout.round, x.2.1⟩) x.2.2 = .ok () := by
  obtain ⟨hlt, hqc, hpower, hsigners⟩ := TwoChainTimeoutCertificate.verify_eq_ok_steps h
  obtain ⟨-, hall⟩ := TwoChainTimeoutCertificate.verifySigners_eq_ok hsigners
  exact ⟨hlt, hqc, hpower, hall⟩

end Dijets.Consensus
