import Dijets.Consensus.RoundState
import Dijets.Lib.BinarySearch
import Dijets.Lib.SortedMap
import Dijets.Lib.Run
import Mathlib.Algebra.Order.BigOperators.Group.List
import Mathlib.Algebra.Order.Group.Nat

/-!
# Proposer election by leader reputation

`LeaderReputation` elects the proposer of a round at random, weighted by the proposers'
reputation in the committed history. `get_valid_proposer(round)` asks the metadata
backend for the history up to four rounds back and the heuristic for a weight per
proposer, turns the weights into running totals in place, draws
`next(round.to_le_bytes()) % total_weight`, and takes the first running total above the
draw by a binary search. `is_valid_proposal` accepts a block only from the round's
proposer, and keeps the round of the last accepted proposal with the block id each
author proposed in it, so that it accepts at most one block per author and round.

The backend and the heuristic are trait objects, and are the functions the election
is built with; `ActiveInactiveHeuristic` is the heuristic the node builds it with.
`next` hashes with SHA3-256, which is a parameter `sha3` of the model. The running
totals are added in `u64`, checked as in a debug build: `none` is a panic, and so are the
failed `assert_eq!`, the remainder by a zero total and `unwrap_err` of `Ok`. The search
is `slice::binary_search_by` of Rust 1.54 (`Lib.BinarySearch`).

A call to `is_valid_proposer` runs the whole election again, and the backend reads a
database that grows between calls, so the proposer of a round may change. A run of
`is_valid_proposal` therefore takes at each call what `is_valid_proposer` answers then.

## Main results

* `get_valid_proposer_weighted` — the proposer drawn is the one whose interval of
  running totals holds the draw.
* `one_proposal_per_author_round` — over every run, at most one block id is accepted
  per author and round.
-/

set_option autoImplicit false

namespace Dijets.Consensus

open Lib

/-- `NewBlockEvent`, with what the heuristic reads of it. -/
structure NewBlockEvent where
  round : ℕ
  proposer : Author
  votes : List Author
deriving DecidableEq, Repr

/-- `ActiveInactiveHeuristic`: the active weight for a candidate seen in the history, the
inactive one otherwise. -/
structure ActiveInactiveHeuristic where
  author : Author
  activeWeight : ℕ
  inactiveWeight : ℕ
deriving DecidableEq, Repr

/-- `ActiveInactiveHeuristic::get_weights`. The counts of this node's own committed
proposals and votes only set metrics, and are left out. -/
def ActiveInactiveHeuristic.getWeights (h : ActiveInactiveHeuristic) (candidates : List Author)
    (history : List NewBlockEvent) : List ℕ :=
  let set := history.foldl
    (fun set event =>
      event.votes.foldl (fun set vote => set.insert vote) (set.insert event.proposer))
    []
  candidates.map fun author => if author ∈ set then h.activeWeight else h.inactiveWeight

/-- The heuristic gives one weight per candidate. -/
@[simp] theorem ActiveInactiveHeuristic.length_getWeights (h : ActiveInactiveHeuristic)
    (candidates : List Author) (history : List NewBlockEvent) :
    (h.getWeights candidates history).length = candidates.length := by
  simp [ActiveInactiveHeuristic.getWeights]

/-- `LeaderReputation`: the proposers, with the answers of the metadata backend
(`get_block_metadata`) and of the heuristic (`get_weights`). -/
structure LeaderReputation where
  proposers : List Author
  getBlockMetadata : ℕ → List NewBlockEvent
  getWeights : List Author → List NewBlockEvent → List ℕ

/-- `u64::to_le_bytes`. -/
def toLeBytes (n : ℕ) : List UInt8 :=
  (List.range 8).map fun k => (n / 256 ^ k).toUInt8

/-- `u64::from_le_bytes`. -/
def fromLeBytes (bytes : List UInt8) : ℕ :=
  bytes.foldr (fun b acc => b.toNat + 256 * acc) 0

/-- `next`: the state becomes its SHA3-256 hash, and the hash's first eight bytes, read
little endian, are the value. -/
def next (sha3 : List UInt8 → Vector UInt8 32) (state : List UInt8) : List UInt8 × ℕ :=
  let state := (sha3 state).toList
  (state, fromLeBytes (state.take 8))

/-- The loop `for w in &mut weights { total_weight += *w; *w = total_weight; }` from
`total`: the total, and the running totals in place of the weights. -/
def accumulate : ℕ → List ℕ → Option (ℕ × List ℕ)
  | total, [] => some (total, [])
  | total, w :: ws => do
    let total ← u64Add total w
    let (total', sums) ← accumulate total ws
    pure (total', total :: sums)

/-- The round of the history the election reads: four rounds back, or round 0. -/
def targetRound (round : ℕ) : ℕ :=
  if round ≥ 4 then round - 4 else 0

namespace LeaderReputation

variable (sha3 : List UInt8 → Vector UInt8 32)

/-- `get_valid_proposer`; `none` is a panic. -/
def getValidProposer (lr : LeaderReputation) (round : ℕ) : Option Author := do
  let slidingWindow := lr.getBlockMetadata (targetRound round)
  let weights := lr.getWeights lr.proposers slidingWindow
  guard (weights.length = lr.proposers.length)
  let (totalWeight, weights) ← accumulate 0 weights
  guard (totalWeight ≠ 0)
  let state := toLeBytes round
  let chosenWeight := (next sha3 state).2 % totalWeight
  let result ← BinarySearch.binarySearchBy weights fun w =>
    if w ≤ chosenWeight then .lt else .gt
  match result with
  | .error chosenIndex => lr.proposers[chosenIndex]?
  | .ok _ => none

/-- `ProposerElection::is_valid_proposer`. -/
def isValidProposer (lr : LeaderReputation) (author : Author) (round : ℕ) : Bool :=
  lr.getValidProposer sha3 round == some author

end LeaderReputation

/-! ## The running totals -/

section Accumulate

/-- A total that stays within `u64` gives the running totals: the `k`-th is the sum of
the first `k + 1` weights. -/
theorem accumulate_spec : ∀ (total : ℕ) (ws : List ℕ), total + ws.sum ≤ u64Max →
    ∃ sums, accumulate total ws = some (total + ws.sum, sums) ∧ sums.length = ws.length ∧
      ∀ k (hk : k < sums.length), sums[k] = total + (ws.take (k + 1)).sum
  | total, [], _ => ⟨[], rfl, rfl, fun k hk => absurd hk (Nat.not_lt_zero k)⟩
  | total, w :: ws, hfit => by
    have hw : total + w ≤ u64Max := by
      simp only [List.sum_cons] at hfit
      omega
    obtain ⟨sums, hsums, hlen, hk⟩ := accumulate_spec (total + w) ws (by
      simp only [List.sum_cons] at hfit
      omega)
    refine ⟨(total + w) :: sums, ?_, by simp [hlen], fun k hk' => ?_⟩
    · simp only [accumulate, u64Add, if_pos hw, Option.bind_eq_bind, Option.bind_some, hsums,
        List.sum_cons, Nat.add_assoc]
      rfl
    · cases k with
      | zero => simp
      | succ k =>
        simp only [List.getElem_cons_succ, hk k (by simpa using hk'), List.take_succ_cons,
          List.sum_cons]
        omega

theorem sum_take_le_sum_take (ws : List ℕ) {a b : ℕ} (h : a ≤ b) :
    (ws.take a).sum ≤ (ws.take b).sum :=
  (List.take_sublist_take_left h).sum_le_sum fun _ _ => Nat.zero_le _

end Accumulate

/-! ## The proposer drawn -/

namespace LeaderReputation

variable {sha3 : List UInt8 → Vector UInt8 32}

/-- The interval of running totals that holds a value is unique. -/
theorem eq_of_sum_take_le_lt {ws : List ℕ} {c i j : ℕ} (hi : (ws.take i).sum ≤ c)
    (hi' : c < (ws.take (i + 1)).sum) (hj : (ws.take j).sum ≤ c)
    (hj' : c < (ws.take (j + 1)).sum) : j = i := by
  by_cases hlt : j < i
  · have := sum_take_le_sum_take ws (show j + 1 ≤ i by omega)
    omega
  · by_cases hgt : i < j
    · have := sum_take_le_sum_take ws (show i + 1 ≤ j by omega)
      omega
    · omega

/-- **The proposer drawn.** Let `w` be the heuristic's weights for the round, one per
proposer, with a total `S` that is positive and within `u64`, and let `c` be the draw
`next(round.to_le_bytes()) % S`. The proposer elected is `proposers[i]` for the one index
`i` whose interval of running totals `[w₀ + … + wᵢ₋₁, w₀ + … + wᵢ)` holds `c`; its weight
is positive. -/
theorem get_valid_proposer_weighted (lr : LeaderReputation) (round : ℕ) (w : List ℕ)
    (hw : lr.getWeights lr.proposers (lr.getBlockMetadata (targetRound round)) = w)
    (hlen : w.length = lr.proposers.length) (hpos : 0 < w.sum) (hfit : w.sum ≤ u64Max) :
    ∃ i, ∃ hi : i < w.length, ∃ hp : i < lr.proposers.length,
      lr.getValidProposer sha3 round = some lr.proposers[i] ∧
      (w.take i).sum ≤ (next sha3 (toLeBytes round)).2 % w.sum ∧
      (next sha3 (toLeBytes round)).2 % w.sum < (w.take (i + 1)).sum ∧ 0 < w[i] ∧
      ∀ j, (w.take j).sum ≤ (next sha3 (toLeBytes round)).2 % w.sum →
        (next sha3 (toLeBytes round)).2 % w.sum < (w.take (j + 1)).sum → j = i := by
  obtain ⟨sums, hacc, hslen, hsums⟩ := accumulate_spec 0 w (by omega)
  simp only [Nat.zero_add] at hacc hsums
  generalize hc : (next sha3 (toLeBytes round)).2 % w.sum = c
  have hclt : c < w.sum := hc ▸ Nat.mod_lt _ hpos
  -- the comparator answers `Less` exactly on the running totals up to the draw
  have hmono : ∀ i j (hij : i < j) (hj : j < sums.length),
      (if sums[j] ≤ c then Ordering.lt else .gt) = .lt →
        (if sums[i] ≤ c then Ordering.lt else .gt) = .lt := by
    intro i j hij hj hfj
    have hsj : sums[j] ≤ c := by
      by_contra hcon
      rw [if_neg hcon] at hfj
      cases hfj
    have hle : sums[i] ≤ sums[j] := by
      rw [hsums i (by omega), hsums j hj]
      exact sum_take_le_sum_take w (by omega)
    rw [if_pos (le_trans hle hsj)]
  obtain ⟨p, hp, hsearch, hpart⟩ := @BinarySearch.binarySearchBy_eq_error ℕ _ sums
    (fun s => if s ≤ c then Ordering.lt else .gt)
    (fun x _ => by by_cases hx : x ≤ c <;> simp [hx]) hmono
  have hpart' : ∀ j (hj : j < sums.length), sums[j] ≤ c ↔ j < p := by
    intro j hj
    rw [← hpart j hj]
    by_cases hx : sums[j] ≤ c <;> simp [hx]
  -- the last running total is the whole sum, above the draw, so `p` is an index
  obtain ⟨n, hn⟩ : ∃ n, w.length = n + 1 := by
    apply Nat.exists_eq_succ_of_ne_zero
    intro h0
    rw [List.length_eq_zero_iff.mp h0] at hpos
    simp at hpos
  have hnlt : n < sums.length := by omega
  have hlast : sums[n] = w.sum := by
    rw [hsums n hnlt, ← hn, List.take_length]
  have hpw : p < w.length := by
    by_contra hcon
    have := (hpart' n hnlt).mpr (by omega)
    omega
  have habove : c < (w.take (p + 1)).sum := by
    rw [← hsums p (by omega)]
    by_contra hcon
    exact absurd ((hpart' p (by omega)).mp (by omega)) (lt_irrefl p)
  have hbelow : (w.take p).sum ≤ c := by
    cases p with
    | zero => simp
    | succ q =>
      rw [← hsums q (by omega)]
      exact (hpart' q (by omega)).mpr (Nat.lt_succ_self q)
  refine ⟨p, hpw, by omega, ?_, hbelow, habove, ?_,
    fun j hj hj' => eq_of_sum_take_le_lt hbelow habove hj hj'⟩
  · have htotal : w.sum ≠ 0 := by omega
    simp [getValidProposer, hw, hlen, hacc, htotal, hc, hsearch]
  · rw [List.sum_take_succ w p hpw] at habove
    omega

end LeaderReputation

/-! ## One proposal per author and round -/

/-- `already_proposed`: the round of the last proposal accepted, and the block id each
author proposed in it. -/
structure AlreadyProposed where
  round : ℕ
  proposals : List (Author × HashValue)
deriving DecidableEq, Repr

/-- `LeaderReputation::new`'s `(0, HashMap::new())`. -/
def AlreadyProposed.initial : AlreadyProposed := ⟨0, []⟩

namespace LeaderReputation

/-- `is_valid_proposal`, with `isValidProposer` what `is_valid_proposer` answers at this
call. -/
def isValidProposalWith (isValidProposer : Author → ℕ → Bool) (alreadyProposed : AlreadyProposed)
    (block : Block) : AlreadyProposed × Bool :=
  match block.blockData.author with
  | none => (alreadyProposed, false)
  | some author =>
    if !isValidProposer author block.round then (alreadyProposed, false)
    else
      match compare block.round alreadyProposed.round with
      | .gt => (⟨block.round, SortedMap.insert author block.id []⟩, true)
      | .eq =>
        if (SortedMap.get? author alreadyProposed.proposals).any (fun id => id != block.id) then
          (alreadyProposed, false)
        else
          (⟨alreadyProposed.round,
            SortedMap.insert author block.id alreadyProposed.proposals⟩, true)
      | .lt => (alreadyProposed, false)

/-- `is_valid_proposal` of the election. -/
def isValidProposal (sha3 : List UInt8 → Vector UInt8 32) (lr : LeaderReputation) :
    AlreadyProposed → Block → AlreadyProposed × Bool :=
  isValidProposalWith (lr.isValidProposer sha3)

/-- One call of `is_valid_proposal`, given what `is_valid_proposer` answers at the call;
the block is recorded with the answer. -/
def proposalStep (alreadyProposed : AlreadyProposed) (call : (Author → ℕ → Bool) × Block) :
    AlreadyProposed × (Block × Bool) :=
  let r := isValidProposalWith call.1 alreadyProposed call.2
  (r.1, (call.2, r.2))

variable {v : Author → ℕ → Bool} {s : AlreadyProposed} {block : Block}

/-- What a call does: it rejects and changes nothing, or it accepts a block of an author
from a later round and starts that round, or from the current round when the author
proposed no other block in it. -/
theorem isValidProposalWith_cases :
    ((isValidProposalWith v s block).2 = false ∧ (isValidProposalWith v s block).1 = s) ∨
      ∃ a, block.blockData.author = some a ∧ (isValidProposalWith v s block).2 = true ∧
        ((s.round < block.round ∧
            (isValidProposalWith v s block).1 = ⟨block.round, SortedMap.insert a block.id []⟩) ∨
          (block.round = s.round ∧
            (∀ id, SortedMap.get? a s.proposals = some id → id = block.id) ∧
            (isValidProposalWith v s block).1 =
              ⟨s.round, SortedMap.insert a block.id s.proposals⟩)) := by
  unfold isValidProposalWith
  split
  · exact Or.inl ⟨rfl, rfl⟩
  · rename_i a ha
    by_cases hv : v a block.round = true
    · rw [if_neg (show ¬ (!v a block.round) = true by simpa using hv)]
      split
      · rename_i hcmp
        exact Or.inr ⟨a, ha, rfl, Or.inl ⟨compare_gt_iff_gt.mp hcmp, rfl⟩⟩
      · rename_i hcmp
        split
        · exact Or.inl ⟨rfl, rfl⟩
        · rename_i hany
          refine Or.inr ⟨a, ha, rfl, Or.inr ⟨compare_eq_iff_eq.mp hcmp, fun id hid => ?_, rfl⟩⟩
          simp only [hid, Option.any_some, bne_iff_ne, ne_eq, not_not] at hany
          exact hany
      · exact Or.inl ⟨rfl, rfl⟩
    · rw [if_pos (show (!v a block.round) = true by simpa using hv)]
      exact Or.inl ⟨rfl, rfl⟩

/-- An accepted block, remembered by the state: its round is at most the state's, and in
the state's round the author's entry is its id. -/
def Remembers (s : AlreadyProposed) (answer : Block × Bool) : Prop :=
  answer.2 = true → answer.1.round ≤ s.round ∧ ∃ a, answer.1.blockData.author = some a ∧
    (answer.1.round = s.round → SortedMap.get? a s.proposals = some answer.1.id)

/-- Two accepted blocks of one author and round have one id. -/
def SameId (p q : Block × Bool) : Prop :=
  p.2 = true → q.2 = true → p.1.blockData.author = q.1.blockData.author →
    p.1.round = q.1.round → p.1.id = q.1.id

theorem sorted_proposalStep (call : (Author → ℕ → Bool) × Block)
    (hs : SortedMap.Sorted s.proposals) : SortedMap.Sorted (proposalStep s call).1.proposals := by
  rcases @isValidProposalWith_cases call.1 s call.2 with ⟨-, h⟩ | ⟨a, -, -, ⟨-, h⟩ | ⟨-, -, h⟩⟩
  all_goals simp only [proposalStep, h]
  · exact hs
  · exact SortedMap.sorted_insert SortedMap.sorted_nil
  · exact SortedMap.sorted_insert hs

theorem Remembers.proposalStep {answer : Block × Bool} (call : (Author → ℕ → Bool) × Block)
    (h : Remembers s answer) :
    Remembers (proposalStep s call).1 answer := by
  intro hok
  obtain ⟨hle, b, hb, hcur⟩ := h hok
  rcases @isValidProposalWith_cases call.1 s call.2 with
    ⟨-, h⟩ | ⟨a, -, -, ⟨hlt, h⟩ | ⟨hround, hfresh, h⟩⟩
  all_goals simp only [LeaderReputation.proposalStep, h]
  · exact ⟨hle, b, hb, hcur⟩
  · -- a later round starts: the block's round is behind it
    exact ⟨by omega, b, hb, fun heq => absurd heq (by omega)⟩
  · refine ⟨hle, b, hb, fun heq => ?_⟩
    by_cases hab : b = a
    · subst hab
      rw [SortedMap.get?_insert_self, hfresh _ (hcur heq)]
    · rw [SortedMap.get?_insert_ne hab]
      exact hcur heq

theorem remembers_proposalStep (call : (Author → ℕ → Bool) × Block) :
    Remembers (proposalStep s call).1 (proposalStep s call).2 := by
  intro hok
  rcases @isValidProposalWith_cases call.1 s call.2 with
    ⟨hno, -⟩ | ⟨a, ha, -, ⟨-, h⟩ | ⟨hround, -, h⟩⟩
  · simp only [proposalStep, hno] at hok
    cases hok
  all_goals simp only [proposalStep, h]
  · exact ⟨le_rfl, a, ha, fun _ => SortedMap.get?_insert_self⟩
  · exact ⟨le_of_eq hround, a, ha, fun _ => SortedMap.get?_insert_self⟩

theorem sameId_proposalStep {answer : Block × Bool} (call : (Author → ℕ → Bool) × Block)
    (h : Remembers s answer) :
    SameId answer (proposalStep s call).2 ∧ SameId (proposalStep s call).2 answer := by
  have key : answer.2 = true → (proposalStep s call).2.2 = true →
      answer.1.blockData.author = call.2.blockData.author → answer.1.round = call.2.round →
      answer.1.id = call.2.id := by
    intro hok hok' hauthor hround
    obtain ⟨hle, b, hb, hcur⟩ := h hok
    rcases @isValidProposalWith_cases call.1 s call.2 with
      ⟨hno, -⟩ | ⟨a, ha, -, ⟨hlt, -⟩ | ⟨hround', hfresh, -⟩⟩
    · simp only [proposalStep, hno] at hok'
      cases hok'
    · omega
    · rw [hb, ha, Option.some.injEq] at hauthor
      subst hauthor
      exact hfresh _ (hcur (by omega))
  refine ⟨fun hok hok' hauthor hround => key hok hok' hauthor hround,
    fun hok' hok hauthor hround => (key hok hok' hauthor.symm hround.symm).symm⟩

/-- **One proposal per author and round.** Over every run of `is_valid_proposal` from
the new election's state, whatever `is_valid_proposer` answers at each call and in
whatever order the rounds come, two accepted blocks of one author and one round have one
id. -/
theorem one_proposal_per_author_round (calls : List ((Author → ℕ → Bool) × Block)) :
    ∀ p ∈ (run proposalStep AlreadyProposed.initial calls).2,
      ∀ q ∈ (run proposalStep AlreadyProposed.initial calls).2, SameId p q := by
  have hrun := @reachable_run _ _ _ (fun s => s = AlreadyProposed.initial) proposalStep _
    rfl calls
  refine (hrun.pairwise (fun s => SortedMap.Sorted s.proposals) Remembers SameId ?_ ?_ ?_ ?_ ?_
    ?_).2.2
  · rintro s rfl
    exact SortedMap.sorted_nil
  · intro s call hs
    exact sorted_proposalStep call hs
  · intro s call answer _ h
    exact h.proposalStep call
  · intro s call _
    exact remembers_proposalStep call
  · intro s call _ _ _ _ _
    rfl
  · intro s call answer _ h
    exact sameId_proposalStep call h

end LeaderReputation

open LeaderReputation

/-- **Leader reputation.** (a) The proposer elected for a round is the one whose interval
of running totals holds the draw, for any hash, backend and heuristic whose weights, one
per proposer, have a positive total within `u64`. (b) Over every run of
`is_valid_proposal`, at most one block id is accepted per author and round. -/
theorem leader_reputation_election :
    (∀ (sha3 : List UInt8 → Vector UInt8 32) (lr : LeaderReputation) (round : ℕ) (w : List ℕ),
      lr.getWeights lr.proposers (lr.getBlockMetadata (targetRound round)) = w →
      w.length = lr.proposers.length → 0 < w.sum → w.sum ≤ u64Max →
      ∃ i, ∃ hi : i < w.length, ∃ hp : i < lr.proposers.length,
        lr.getValidProposer sha3 round = some lr.proposers[i] ∧
        (w.take i).sum ≤ (next sha3 (toLeBytes round)).2 % w.sum ∧
        (next sha3 (toLeBytes round)).2 % w.sum < (w.take (i + 1)).sum ∧ 0 < w[i] ∧
        ∀ j, (w.take j).sum ≤ (next sha3 (toLeBytes round)).2 % w.sum →
          (next sha3 (toLeBytes round)).2 % w.sum < (w.take (j + 1)).sum → j = i) ∧
    ∀ calls : List ((Author → ℕ → Bool) × Block),
      ∀ p ∈ (run proposalStep AlreadyProposed.initial calls).2,
        ∀ q ∈ (run proposalStep AlreadyProposed.initial calls).2, SameId p q :=
  ⟨fun _ lr round w hw hlen hpos hfit => get_valid_proposer_weighted lr round w hw hlen hpos hfit,
    one_proposal_per_author_round⟩

/-- A hash whose every byte is zero. -/
def zeroHash (_ : List UInt8) : Vector UInt8 32 := Vector.replicate 32 0

/-- Proposers `1, 2, 3`, weighted by `ActiveInactiveHeuristic` with active weight 5 and
inactive weight 0 over a history in which only 2 proposed and voted. -/
def reputationElection : LeaderReputation :=
  ⟨[1, 2, 3], fun _ => [⟨0, 2, [2]⟩], (ActiveInactiveHeuristic.mk 2 5 0).getWeights⟩

/-- The weights are `[0, 5, 0]`, the draw is 0, and it falls to proposer 2. -/
theorem leader_reputation_election_zeroHash :
    reputationElection.getValidProposer zeroHash 0 = some 2 := by
  obtain ⟨i, hi, hp, hget, -, -, -, huniq⟩ := leader_reputation_election.1 zeroHash
    reputationElection 0 [0, 5, 0] (by decide) (by decide) (by decide) (by decide)
  have hnext : (next zeroHash (toLeBytes 0)).2 = 0 := by decide
  obtain rfl : 1 = i := huniq 1 (by simp [hnext]) (by simp [hnext])
  rw [hget]
  rfl

end Dijets.Consensus
