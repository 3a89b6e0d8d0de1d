import Mathlib.Data.List.Sort
import Dijets.Mempool.Index

/-!
# The transaction store of the mempool

`TransactionStore` keeps the mempool's transactions by account and sequence number, and
the five indexes of `Dijets.Mempool.Index` over them. Every operation updates the indexes
by hand: `insert` (with the update of a transaction by a higher gas price, the eviction of a
parked transaction when the mempool is full, and the clean-up of committed transactions),
`commit_transaction`, `reject_transaction` and the two garbage collections. After each of
them `process_ready_transactions` promotes the transactions of consecutive sequence numbers
from the account's current one to the priority index and the timeline, and parks the
others.

A transaction that garbage collection parks keeps the timeline id its state records, while
its timeline entry is removed; when it is promoted again, the promotion inserts into the
timeline only transactions whose state is `NotReady`, so it is in the priority index and
never again in the timeline (`reparked_transaction_leaves_timeline`).

## Main definitions

* `TransactionStore` — the store.
* `TransactionStore.insert`, `commitTransaction`, `rejectTransaction`, `gcBySystemTtl`,
  `gcByExpirationTime`, `readTimeline` — its operations.
-/

set_option autoImplicit false

namespace Dijets.Mempool

open Dijets.Lib

/-- `AccountTransactions`: an account's transactions by sequence number, a `BTreeMap`. -/
abbrev AccountTransactions := List (ℕ × MempoolTransaction)

/-- `MempoolStatusCode`, of the codes the store returns. -/
inductive MempoolStatusCode where
  | accepted
  | invalidUpdate
  | mempoolIsFull
  | tooManyTransactions
deriving DecidableEq, Repr

/-- `MempoolStatus`: a code and a message, empty unless `with_message` gives one. -/
structure MempoolStatus where
  code : MempoolStatusCode
  message : String
deriving DecidableEq, Repr

def MempoolStatus.new (code : MempoolStatusCode) : MempoolStatus := ⟨code, ""⟩

/-- `MempoolConfig`, of the fields the store reads. -/
structure MempoolConfig where
  capacity : ℕ
  capacityPerUser : ℕ
deriving DecidableEq, Repr

/-- `TransactionStore`. -/
structure TransactionStore where
  transactions : List (AccountAddress × AccountTransactions)
  priorityIndex : PriorityIndex
  expirationTimeIndex : TTLIndex
  systemTtlIndex : TTLIndex
  timelineIndex : TimelineIndex
  parkingLotIndex : ParkingLotIndex
  capacity : ℕ
  capacityPerUser : ℕ
deriving DecidableEq, Repr

namespace TransactionStore

/-- `TransactionStore::new`. -/
def new (config : MempoolConfig) : TransactionStore :=
  { transactions := [],
    systemTtlIndex := TTLIndex.new .system,
    expirationTimeIndex := TTLIndex.new .client,
    priorityIndex := PriorityIndex.new,
    timelineIndex := TimelineIndex.new,
    parkingLotIndex := ParkingLotIndex.new,
    capacity := config.capacity,
    capacityPerUser := config.capacityPerUser }

/-- The transactions of an account, `transactions.get(address)`. -/
def accountTxns (s : TransactionStore) (address : AccountAddress) : Option AccountTransactions :=
  SortedMap.get? address s.transactions

theorem accountTxns_eq (s : TransactionStore) (address : AccountAddress) :
    s.accountTxns address = SortedMap.get? address s.transactions := rfl

/-- The account's transactions replaced, as a `get_mut` of the account leaves them. -/
def setAccountTxns (s : TransactionStore) (address : AccountAddress) (txns : AccountTransactions) :
    TransactionStore :=
  { s with transactions := SortedMap.insert address txns s.transactions }

/-- `TransactionStore::get`. -/
def get (s : TransactionStore) (address : AccountAddress) (sequenceNumber : ℕ) :
    Option SignedTransaction :=
  ((s.accountTxns address).bind (SortedMap.get? sequenceNumber)).map MempoolTransaction.txn

/-- `TransactionStore::index_remove`: the transaction out of all five indexes. -/
def indexRemove (s : TransactionStore) (txn : MempoolTransaction) : TransactionStore :=
  { s with systemTtlIndex := s.systemTtlIndex.remove txn,
           expirationTimeIndex := s.expirationTimeIndex.remove txn,
           priorityIndex := s.priorityIndex.remove txn,
           timelineIndex := s.timelineIndex.remove txn,
           parkingLotIndex := s.parkingLotIndex.remove txn }

/-- A transaction taken out of its account's map, and out of the indexes:
`txns.remove(..)` followed by `index_remove`. -/
def removeTxn (s : TransactionStore) (address : AccountAddress) (txns : AccountTransactions)
    (txn : MempoolTransaction) : TransactionStore :=
  (s.setAccountTxns address (SortedMap.erase txn.getSequenceNumber txns)).indexRemove txn

/-! ## Promotion and parking -/

/-- The `while let` loop of `process_ready_transactions`: from `sequenceNumber` on, each
transaction the account holds goes into the priority index, into the timeline when its
state is `NotReady`, which then records its timeline id, and out of the parking lot. It
returns the indexes, the account's transactions and the first sequence number the account
does not hold. Each round takes one of the account's transactions, so the account's size is
fuel enough (`promote_fuel`). -/
def promote (fuel : ℕ) (s : TransactionStore) (txns : AccountTransactions) (sequenceNumber : ℕ) :
    TransactionStore × AccountTransactions × ℕ :=
  match fuel with
  | 0 => (s, txns, sequenceNumber)
  | fuel + 1 =>
    match SortedMap.get? sequenceNumber txns with
    | none => (s, txns, sequenceNumber)
    | some txn =>
      let s := { s with priorityIndex := s.priorityIndex.insert txn }
      let (s, txns, txn) :=
        if txn.timelineState = .notReady then
          let (timelineIndex, txn) := s.timelineIndex.insert txn
          ({ s with timelineIndex := timelineIndex }, SortedMap.insert sequenceNumber txn txns, txn)
        else (s, txns, txn)
      let s := { s with parkingLotIndex := s.parkingLotIndex.remove txn }
      promote fuel s txns (sequenceNumber + 1)

/-- A round of the loop gives the account's map new values at the same keys. -/
theorem promote_succ_of_get? (s : TransactionStore) {txns : AccountTransactions} {q : ℕ}
    {txn : MempoolTransaction} (hsorted : SortedMap.Sorted txns) (hq : SortedMap.get? q txns = some txn) :
    ∃ s' txns', txns'.map Prod.fst = txns.map Prod.fst ∧ SortedMap.Sorted txns' ∧
      ∀ n, promote (n + 1) s txns q = promote n s' txns' (q + 1) := by
  -- the round's store and map are those the unfolded loop computes, whatever the fuel
  by_cases hnr : txn.timelineState = .notReady
  · refine ⟨{ s with priorityIndex := s.priorityIndex.insert txn,
                     timelineIndex := (s.timelineIndex.insert txn).1,
                     parkingLotIndex := s.parkingLotIndex.remove (s.timelineIndex.insert txn).2 },
      SortedMap.insert q (s.timelineIndex.insert txn).2 txns, SortedMap.keys_insert_of_get? hsorted hq,
      SortedMap.sorted_insert hsorted, fun n => ?_⟩
    simp only [promote, hq, hnr, if_true]
  · refine ⟨{ s with priorityIndex := s.priorityIndex.insert txn,
                     parkingLotIndex := s.parkingLotIndex.remove txn }, txns, rfl, hsorted, fun n => ?_⟩
    simp only [promote, hq, hnr, if_false]

/-- One more round of fuel changes nothing, unless the account holds the transactions of
all the sequence numbers the rounds visit. -/
theorem promote_succ_eq_or (n : ℕ) : ∀ (s : TransactionStore) (txns : AccountTransactions) (q : ℕ),
    SortedMap.Sorted txns →
      promote (n + 1) s txns q = promote n s txns q ∨ ∀ i < n + 1, q + i ∈ txns.map Prod.fst := by
  induction n with
  | zero =>
    intro s txns q hsorted
    cases hq : SortedMap.get? q txns with
    | none => exact Or.inl (by simp only [promote, hq])
    | some txn =>
      refine Or.inr fun i hi => ?_
      rw [show i = 0 by omega, Nat.add_zero]
      exact SortedMap.mem_keys_of_get? hq
  | succ n ih =>
    intro s txns q hsorted
    cases hq : SortedMap.get? q txns with
    | none => exact Or.inl (by simp only [promote, hq])
    | some txn =>
      obtain ⟨s', txns', hkeys, hsorted', hround⟩ := promote_succ_of_get? s hsorted hq
      rw [hround, hround]
      refine (ih s' txns' (q + 1) hsorted').imp id fun hall i hi => ?_
      -- the first sequence number is held, and the rounds after it visit the others
      rcases i with _ | i
      · exact SortedMap.mem_keys_of_get? hq
      · rw [← hkeys, show q + (i + 1) = q + 1 + i by omega]
        exact hall i (by omega)

/-- **The account's size is fuel enough** for the loop: more fuel changes nothing, as the
loop cannot visit more sequence numbers than the account holds. -/
theorem promote_fuel {s : TransactionStore} {txns : AccountTransactions} {q : ℕ}
    (hsorted : SortedMap.Sorted txns) (m : ℕ) :
    promote (txns.length + m) s txns q = promote txns.length s txns q := by
  induction m with
  | zero => rfl
  | succ m ih =>
    rw [← Nat.add_assoc]
    refine ((promote_succ_eq_or _ s txns q hsorted).resolve_right fun hall => ?_).trans ih
    -- the visited sequence numbers would be more than the account's keys
    have hsub : List.range' q (txns.length + m + 1) ⊆ txns.map Prod.fst := by
      intro x hx
      obtain ⟨i, hi, rfl⟩ := List.mem_range'.mp hx
      simpa using hall i hi
    have hnodup : (List.range' q (txns.length + m + 1)).Nodup := List.nodup_range'
    have hlen := hnodup.length_le_of_subset hsub
    simp only [List.length_range', List.length_map] at hlen
    omega

/-- The `for` loop of `process_ready_transactions`: the transactions it passes over that
are not `Ready` go into the parking lot. -/
def parkNotReady (p : ParkingLotIndex) (txns : AccountTransactions) : ParkingLotIndex :=
  txns.foldl (fun p e =>
    match e.2.timelineState with
    | .ready _ => p
    | _ => p.insert e.2) p

/-- `TransactionStore::process_ready_transactions`. -/
def processReadyTransactions (s : TransactionStore) (address : AccountAddress)
    (currentSequenceNumber : ℕ) : TransactionStore :=
  match s.accountTxns address with
  | none => s
  | some txns =>
    let (s, txns, sequenceNumber) := promote txns.length s txns currentSequenceNumber
    let parked := txns.filter (fun e => decide (sequenceNumber < e.1))
    let s := { s with parkingLotIndex := parkNotReady s.parkingLotIndex parked }
    s.setAccountTxns address txns

/-- `TransactionStore::clean_committed_transactions`: the account's transactions below the
sequence number leave the map, then the indexes. -/
def cleanCommittedTransactions (s : TransactionStore) (address : AccountAddress)
    (sequenceNumber : ℕ) : TransactionStore :=
  match s.accountTxns address with
  | none => s
  | some txns =>
    let active := txns.filter (fun e => decide (sequenceNumber ≤ e.1))
    let txnsForRemoval := txns.filter (fun e => decide (e.1 < sequenceNumber))
    txnsForRemoval.foldl (fun s e => s.indexRemove e.2) (s.setAccountTxns address active)

/-! ## Insertion -/

/-- The check at the start of `insert` of a transaction already in the mempool: the same
transaction is accepted as it is, and one of the same gas amount, payload and expiration
with a higher gas price replaces it. An error is the status `insert` returns at once. -/
def checkUpdate (s : TransactionStore) (txn : MempoolTransaction) :
    Except MempoolStatus TransactionStore :=
  let address := txn.getSender
  let sequenceNumber := txn.getSequenceNumber
  match s.accountTxns address with
  | none => .ok s
  | some txns =>
    match SortedMap.get? sequenceNumber txns with
    | none => .ok s
    | some currentVersion =>
      if currentVersion.txn = txn.txn then .error (MempoolStatus.new .accepted)
      else if currentVersion.txn.maxGasAmount = txn.txn.maxGasAmount ∧
          currentVersion.txn.payload = txn.txn.payload ∧
          currentVersion.txn.expirationTimestampSecs = txn.txn.expirationTimestampSecs ∧
          currentVersion.getGasPrice < txn.getGasPrice then
        .ok (s.removeTxn address txns currentVersion)
      else
        let gasPrice := txn.getGasPrice
        .error ⟨.invalidUpdate, s!"Failed to update gas price to {gasPrice}"⟩

/-- `TransactionStore::check_txn_ready`: the transaction is of the current sequence number,
or follows a `Ready` one. `none` is the `unreachable!` of a transaction of sequence number
zero that is not current. -/
def checkTxnReady (s : TransactionStore) (txn : MempoolTransaction) (currSequenceNumber : ℕ) :
    Option Bool :=
  let txSequenceNumber := txn.getSequenceNumber
  if txSequenceNumber = currSequenceNumber then some true
  else if txSequenceNumber = 0 then none
  else
    match (s.accountTxns txn.getSender).bind (SortedMap.get? (txSequenceNumber - 1)) with
    | some prevTxn =>
      match prevTxn.timelineState with
      | .ready _ => some true
      | _ => some false
    | none => some false

/-- The eviction in `check_is_full_after_eviction`: the parked transaction `get_poppable`
picks leaves the store. -/
def evictParked (s : TransactionStore) (pick : ℕ) : TransactionStore :=
  match s.parkingLotIndex.getPoppable pick with
  | some (address, sequenceNumber) =>
    match s.accountTxns address with
    | some txns =>
      match SortedMap.get? sequenceNumber txns with
      | some txn => s.removeTxn address txns txn
      | none => s
    | none => s
  | none => s

/-- `TransactionStore::check_is_full_after_eviction`: when the store is full and the
transaction would be ready, a parked transaction is evicted. `none` is a panic of
`check_txn_ready`, which is only called on a full store. -/
def checkIsFullAfterEviction (s : TransactionStore) (txn : MempoolTransaction)
    (currSequenceNumber pick : ℕ) : Option (TransactionStore × Bool) :=
  if s.capacity ≤ s.systemTtlIndex.size then
    (s.checkTxnReady txn currSequenceNumber).map fun ready =>
      let s := if ready then s.evictParked pick else s
      (s, decide (s.capacity ≤ s.systemTtlIndex.size))
  else some (s, false)

/-- `TransactionStore::insert`, with `pick` for the random choice of the parked transaction
to evict; `none` is a panic. -/
def insert (s : TransactionStore) (txn : MempoolTransaction) (currentSequenceNumber pick : ℕ) :
    Option (TransactionStore × MempoolStatus) :=
  let address := txn.getSender
  let sequenceNumber := txn.getSequenceNumber
  match s.checkUpdate txn with
  | .error status => some (s, status)
  | .ok s =>
    (s.checkIsFullAfterEviction txn currentSequenceNumber pick).map fun (s, full) =>
      if full then
        let size := s.systemTtlIndex.size
        let capacity := s.capacity
        (s, ⟨.mempoolIsFull, s!"mempool size: {size}, capacity: {capacity}"⟩)
      else
        let s := { s with transactions := SortedMap.orInsert address [] s.transactions }
        let s := s.cleanCommittedTransactions address currentSequenceNumber
        match s.accountTxns address with
        | some txns =>
          if s.capacityPerUser ≤ txns.length then
            let length := txns.length
            let capacityPerUser := s.capacityPerUser
            (s, ⟨.tooManyTransactions,
              s!"txns length: {length} capacity per user: {capacityPerUser}"⟩)
          else
            let s := { s with systemTtlIndex := s.systemTtlIndex.insert txn,
                              expirationTimeIndex := s.expirationTimeIndex.insert txn }
            let s := s.setAccountTxns address (SortedMap.insert sequenceNumber txn txns)
            (s.processReadyTransactions address currentSequenceNumber, MempoolStatus.new .accepted)
        | none => (s.processReadyTransactions address currentSequenceNumber,
            MempoolStatus.new .accepted)

/-! ## Commit, rejection and garbage collection -/

/-- `TransactionStore::commit_transaction`. -/
def commitTransaction (s : TransactionStore) (account : AccountAddress)
    (accountSequenceNumber : ℕ) : TransactionStore :=
  (s.cleanCommittedTransactions account accountSequenceNumber).processReadyTransactions account
    accountSequenceNumber

/-- `TransactionStore::reject_transaction`: the account's transactions all leave. -/
def rejectTransaction (s : TransactionStore) (account : AccountAddress) (_sequenceNumber : ℕ) :
    TransactionStore :=
  match s.accountTxns account with
  | some txns =>
    txns.foldl (fun s e => s.indexRemove e.2)
      { s with transactions := SortedMap.erase account s.transactions }
  | none => s

/-- The transactions `gc` parks after an expired one: those of the account between its
sequence number and the next expired one of the account, each into the parking lot and out
of the priority index and the timeline. -/
def parkFollowing (s : TransactionStore) (txns : AccountTransactions) (key : TTLOrderingKey)
    (next : Option TTLOrderingKey) : TransactionStore :=
  let parkRangeEnd := (next.filter (fun nextKey => key.address == nextKey.address)).map
    TTLOrderingKey.sequenceNumber
  (txns.filter (fun e => decide (key.sequenceNumber < e.1) && parkRangeEnd.all (e.1 < ·))).foldl
    (fun s e => { s with parkingLotIndex := s.parkingLotIndex.insert e.2,
                         priorityIndex := s.priorityIndex.remove e.2,
                         timelineIndex := s.timelineIndex.remove e.2 }) s

/-- The loop of `gc` over the expired keys, in order of account and sequence number. -/
def gcKeys : TransactionStore → List TTLOrderingKey → TransactionStore
  | s, [] => s
  | s, key :: rest =>
    match s.accountTxns key.address with
    | some txns =>
      let s := s.parkFollowing txns key rest.head?
      match SortedMap.get? key.sequenceNumber txns with
      | some txn => gcKeys (s.removeTxn key.address txns txn) rest
      | none => gcKeys s rest
    | none => gcKeys s rest

/-- `TransactionStore::gc`: the keys of one expiration index that expired before `now`
leave it; sorted by account and sequence number, their transactions leave the store and
the ones after them are parked. `sort_by_key` is a stable sort, as `List.insertionSort` is,
and two stable sorts by one key agree. -/
def gc (s : TransactionStore) (now : ℕ) (bySystemTtl : Bool) : TransactionStore :=
  let (gcTxns, s) :=
    if bySystemTtl then
      let (gcTxns, index) := s.systemTtlIndex.gc now
      (gcTxns, { s with systemTtlIndex := index })
    else
      let (gcTxns, index) := s.expirationTimeIndex.gc now
      (gcTxns, { s with expirationTimeIndex := index })
  s.gcKeys (gcTxns.insertionSort fun a b =>
    toLex (a.address, a.sequenceNumber) ≤ toLex (b.address, b.sequenceNumber))

/-- `TransactionStore::gc_by_system_ttl`, at the clock's `now`. -/
def gcBySystemTtl (s : TransactionStore) (now : ℕ) : TransactionStore := s.gc now true

/-- `TransactionStore::gc_by_expiration_time`. -/
def gcByExpirationTime (s : TransactionStore) (blockTime : ℕ) : TransactionStore :=
  s.gc blockTime false

/-- The loop of `read_timeline`: the transactions of the timeline's entries that are in the
store, and the last timeline id their states record. -/
def readTimelineBatch (s : TransactionStore) :
    List TxnPointer → List SignedTransaction × ℕ → List SignedTransaction × ℕ
  | [], acc => acc
  | (address, sequenceNumber) :: rest, (batch, lastTimelineId) =>
    match (s.accountTxns address).bind (SortedMap.get? sequenceNumber) with
    | some txn =>
      let lastTimelineId := match txn.timelineState with
        | .ready timelineId => timelineId
        | _ => lastTimelineId
      s.readTimelineBatch rest (batch ++ [txn.txn], lastTimelineId)
    | none => s.readTimelineBatch rest (batch, lastTimelineId)

/-- `TransactionStore::read_timeline`; it changes nothing. -/
def readTimeline (s : TransactionStore) (timelineId count : ℕ) : List SignedTransaction × ℕ :=
  s.readTimelineBatch (s.timelineIndex.readTimeline timelineId count) ([], timelineId)

end TransactionStore

/-! ## A transaction lost to the timeline

Two transactions of one account are ready; the first expires by block time and is
submitted again. Garbage collection parks the second and removes its timeline entry, but
its state keeps the timeline id. When the first comes back, the promotion puts the second
into the priority index again and, its state not being `NotReady`, not into the timeline:
consensus may take it, and the mempool never broadcasts it. -/

namespace TransactionStore

/-- The account of the run. -/
def alice : AccountAddress := ⟨1⟩

/-- A transaction of `alice` with a sequence number and an expiration timestamp. -/
def aliceTxn (sequenceNumber expirationTimestampSecs : ℕ) : MempoolTransaction :=
  { txn := { sender := alice, sequenceNumber := sequenceNumber, payload := 0, maxGasAmount := 0,
             gasUnitPrice := 1, expirationTimestampSecs := expirationTimestampSecs,
             authenticator := 0 },
    expirationTime := durationFromSecs 100, gasAmount := 0, rankingScore := 1,
    timelineState := .notReady, governanceRole := 0 }

theorem reparked_transaction_leaves_timeline :
    ∃ s₁ s₂ s₃ st₁ st₂ st₃,
      (TransactionStore.new ⟨100, 100⟩).insert (aliceTxn 0 10) 0 0 = some (s₁, st₁) ∧
      s₁.insert (aliceTxn 1 20) 0 0 = some (s₂, st₂) ∧
      (s₂.gcByExpirationTime (durationFromSecs 15)).insert (aliceTxn 0 30) 0 0 = some (s₃, st₃) ∧
      st₃.code = .accepted ∧
      (s₃.accountTxns alice).bind (SortedMap.get? 1) =
        some { aliceTxn 1 20 with timelineState := .ready 2 } ∧
      s₃.priorityIndex.contains (aliceTxn 1 20) = true ∧
      (∀ e ∈ s₃.timelineIndex.timeline, e.2 ≠ (alice, 1)) ∧
      (s₃.readTimeline 0 0).1 = [(aliceTxn 0 30).txn] := by
  refine ⟨_, _, _, _, _, _, rfl, rfl, rfl, ?_⟩
  decide

end TransactionStore

end Dijets.Mempool
