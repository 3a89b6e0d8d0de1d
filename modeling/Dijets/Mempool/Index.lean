import Mathlib.Data.Prod.Lex
import Mathlib.Order.OrderDual
import Dijets.Lib.SortedMap

/-!
# The indexes of the mempool

The transaction store of the mempool keeps its transactions in one map per account and,
beside them, five indexes of logical references to them: the priority queue consensus
takes blocks from, two expiration indexes for garbage collection, the timeline of
transactions ready for broadcast, and the parking lot of transactions that are not ready.

A `BTreeSet` is a sorted map to `Unit` here and a `BTreeMap` a sorted map (`SortedMap`),
in the order of the source's `Ord` instances. A `HashMap` is a sorted map too: nothing
here depends on its iteration order. A `Duration` is a number of nanoseconds.

## Main definitions

* `MempoolTransaction`, `TimelineState` — a transaction in the mempool.
* `PriorityIndex`, `TTLIndex`, `TimelineIndex`, `ParkingLotIndex` — the indexes.
-/

set_option autoImplicit false

namespace Dijets.Mempool

open Dijets.Lib

/-! ## Transactions -/

/-- `AccountAddress`; addresses compare as their bytes do, here as numbers. -/
structure AccountAddress where
  val : ℕ
deriving DecidableEq, Repr, Inhabited

instance : LinearOrder AccountAddress :=
  LinearOrder.lift' AccountAddress.val fun a b h => by cases a; cases b; cases h; rfl

/-- `AccountAddress::ZERO`, the least address. -/
def AccountAddress.ZERO : AccountAddress := ⟨0⟩

/-- The fields of a `SignedTransaction` that the store reads. The payload is known by its
identity, and `authenticator` stands for the rest (the signature, the chain id, the gas
currency), which only the equality of two transactions compares. -/
structure SignedTransaction where
  sender : AccountAddress
  sequenceNumber : ℕ
  payload : ℕ
  maxGasAmount : ℕ
  gasUnitPrice : ℕ
  expirationTimestampSecs : ℕ
  authenticator : ℕ
deriving DecidableEq, Repr, Inhabited

/-- `TimelineState`. -/
inductive TimelineState where
  /-- Ready for broadcast, at this position of the timeline. -/
  | ready (timelineId : ℕ)
  /-- Not ready yet; it may become ready. -/
  | notReady
  /-- Never broadcast: it came from another peer. -/
  | nonQualified
deriving DecidableEq, Repr, Inhabited

/-- `MempoolTransaction`. A `GovernanceRole` is known here by its `priority()`, the only
thing of it the priority index compares. -/
structure MempoolTransaction where
  txn : SignedTransaction
  /-- The system expiration time, in nanoseconds. -/
  expirationTime : ℕ
  gasAmount : ℕ
  rankingScore : ℕ
  timelineState : TimelineState
  governanceRole : ℕ
deriving DecidableEq, Repr, Inhabited

namespace MempoolTransaction

def getSequenceNumber (t : MempoolTransaction) : ℕ := t.txn.sequenceNumber

def getSender (t : MempoolTransaction) : AccountAddress := t.txn.sender

def getGasPrice (t : MempoolTransaction) : ℕ := t.txn.gasUnitPrice

end MempoolTransaction

/-- `Duration::from_secs`, in nanoseconds. -/
def durationFromSecs (secs : ℕ) : ℕ := secs * 1000000000

/-- `TxnPointer`: a transaction by its sender and sequence number. -/
abbrev TxnPointer := AccountAddress × ℕ

/-! ## The priority index -/

/-- `OrderedQueueKey`. -/
structure OrderedQueueKey where
  gasRankingScore : ℕ
  expirationTime : ℕ
  address : AccountAddress
  sequenceNumber : ℕ
  governanceRole : ℕ
deriving DecidableEq, Repr

/-- The order of `OrderedQueueKey::cmp`: by the role's priority, the gas ranking score,
the expiration time backwards, the address and the sequence number backwards. -/
def OrderedQueueKey.rank (k : OrderedQueueKey) : ℕ ×ₗ ℕ ×ₗ ℕᵒᵈ ×ₗ AccountAddress ×ₗ ℕᵒᵈ :=
  toLex (k.governanceRole, toLex (k.gasRankingScore, toLex (OrderDual.toDual k.expirationTime,
    toLex (k.address, OrderDual.toDual k.sequenceNumber))))

instance : LinearOrder OrderedQueueKey :=
  LinearOrder.lift' OrderedQueueKey.rank fun a b h => by
    cases a
    cases b
    simp only [OrderedQueueKey.rank, EmbeddingLike.apply_eq_iff_eq, Prod.mk.injEq] at h
    obtain ⟨h₁, h₂, h₃, h₄, h₅⟩ := h
    subst h₁ h₂ h₃ h₄ h₅
    rfl

/-- `PriorityIndex`: the keys of the transactions consensus may take, a `BTreeSet`. -/
structure PriorityIndex where
  data : List (OrderedQueueKey × Unit)
deriving DecidableEq, Repr

namespace PriorityIndex

def new : PriorityIndex := ⟨[]⟩

/-- `PriorityIndex::make_key`. -/
def makeKey (txn : MempoolTransaction) : OrderedQueueKey :=
  { gasRankingScore := txn.rankingScore, expirationTime := txn.expirationTime,
    address := txn.getSender, sequenceNumber := txn.getSequenceNumber,
    governanceRole := txn.governanceRole }

def insert (p : PriorityIndex) (txn : MempoolTransaction) : PriorityIndex :=
  ⟨SortedMap.insert (makeKey txn) () p.data⟩

def remove (p : PriorityIndex) (txn : MempoolTransaction) : PriorityIndex :=
  ⟨SortedMap.erase (makeKey txn) p.data⟩

def contains (p : PriorityIndex) (txn : MempoolTransaction) : Bool :=
  (SortedMap.get? (makeKey txn) p.data).isSome

def size (p : PriorityIndex) : ℕ := p.data.length

end PriorityIndex

/-! ## The expiration indexes -/

/-- The two expiration times the store's `TTLIndex`es are built with in
`TransactionStore::new`: the system expiration time, and the client's expiration
timestamp. -/
inductive ExpirationClock where
  | system
  | client
deriving DecidableEq, Repr

/-- The closure `get_expiration_time` of each clock. -/
def ExpirationClock.getExpirationTime : ExpirationClock → MempoolTransaction → ℕ
  | .system, t => t.expirationTime
  | .client, t => durationFromSecs t.txn.expirationTimestampSecs

/-- `TTLOrderingKey`. -/
structure TTLOrderingKey where
  expirationTime : ℕ
  address : AccountAddress
  sequenceNumber : ℕ
deriving DecidableEq, Repr

/-- The order of `TTLOrderingKey::cmp`: by the expiration time, then the address and the
sequence number. -/
def TTLOrderingKey.rank (k : TTLOrderingKey) : ℕ ×ₗ AccountAddress ×ₗ ℕ :=
  toLex (k.expirationTime, toLex (k.address, k.sequenceNumber))

instance : LinearOrder TTLOrderingKey :=
  LinearOrder.lift' TTLOrderingKey.rank fun a b h => by
    cases a
    cases b
    simp only [TTLOrderingKey.rank, EmbeddingLike.apply_eq_iff_eq, Prod.mk.injEq] at h
    obtain ⟨h₁, h₂, h₃⟩ := h
    subst h₁ h₂ h₃
    rfl

/-- The keys below `(now, ZERO, 0)` are those that expire before `now`: no address and
sequence number are below the least ones. -/
theorem TTLOrderingKey.lt_ttlKey_iff {k : TTLOrderingKey} {now : ℕ} :
    k < ⟨now, AccountAddress.ZERO, 0⟩ ↔ k.expirationTime < now := by
  show k.rank < TTLOrderingKey.rank ⟨now, AccountAddress.ZERO, 0⟩ ↔ _
  have hmin : ¬ (k.address < AccountAddress.ZERO ∨
      k.address = AccountAddress.ZERO ∧ k.sequenceNumber < 0) := by
    rintro (h | ⟨-, h⟩)
    · exact Nat.not_lt_zero _ (show k.address.val < 0 from h)
    · exact Nat.not_lt_zero _ h
  simp only [TTLOrderingKey.rank, Prod.Lex.toLex_lt_toLex]
  constructor
  · rintro (h | ⟨-, h⟩)
    · exact h
    · exact absurd h hmin
  · exact Or.inl

/-- `TTLIndex`, a `BTreeSet` of keys under one clock. -/
structure TTLIndex where
  data : List (TTLOrderingKey × Unit)
  clock : ExpirationClock
deriving DecidableEq, Repr

namespace TTLIndex

def new (clock : ExpirationClock) : TTLIndex := ⟨[], clock⟩

def makeKey (idx : TTLIndex) (txn : MempoolTransaction) : TTLOrderingKey :=
  { expirationTime := idx.clock.getExpirationTime txn, address := txn.getSender,
    sequenceNumber := txn.getSequenceNumber }

def insert (idx : TTLIndex) (txn : MempoolTransaction) : TTLIndex :=
  { idx with data := SortedMap.insert (idx.makeKey txn) () idx.data }

def remove (idx : TTLIndex) (txn : MempoolTransaction) : TTLIndex :=
  { idx with data := SortedMap.erase (idx.makeKey txn) idx.data }

/-- `TTLIndex::gc`: the keys below `(now, ZERO, 0)`, those that expired before `now`, are
taken out and returned in order. `split_off` of a sorted set is the two filters. -/
def gc (idx : TTLIndex) (now : ℕ) : List TTLOrderingKey × TTLIndex :=
  let ttlKey : TTLOrderingKey :=
    { expirationTime := now, address := AccountAddress.ZERO, sequenceNumber := 0 }
  ((idx.data.filter (fun e => decide (e.1 < ttlKey))).map Prod.fst,
    { idx with data := idx.data.filter (fun e => !decide (e.1 < ttlKey)) })

def size (idx : TTLIndex) : ℕ := idx.data.length

/-- The keys of the index. -/
def keys (idx : TTLIndex) : List TTLOrderingKey := idx.data.map Prod.fst

variable {idx : TTLIndex} {now : ℕ} {k : TTLOrderingKey}

/-- The keys `gc` returns are those that expired before `now`. -/
theorem mem_gc_fst : k ∈ (idx.gc now).1 ↔ k ∈ idx.keys ∧ k.expirationTime < now := by
  simp [gc, keys, TTLOrderingKey.lt_ttlKey_iff]

/-- The keys `gc` leaves are those that have not expired before `now`. -/
theorem mem_keys_gc_snd : k ∈ (idx.gc now).2.keys ↔ k ∈ idx.keys ∧ now ≤ k.expirationTime := by
  simp [gc, keys, TTLOrderingKey.lt_ttlKey_iff]

@[simp] theorem clock_gc_snd : (idx.gc now).2.clock = idx.clock := rfl

theorem sorted_gc_snd (h : SortedMap.Sorted idx.data) : SortedMap.Sorted (idx.gc now).2.data :=
  List.Pairwise.sublist List.filter_sublist h

end TTLIndex

/-! ## The timeline -/

/-- `TimelineIndex`: the next timeline id, and the ready transactions by their ids. -/
structure TimelineIndex where
  timelineId : ℕ
  timeline : List (ℕ × TxnPointer)
deriving DecidableEq, Repr

namespace TimelineIndex

def new : TimelineIndex := ⟨1, []⟩

/-- The loop of `TimelineIndex::read_timeline` over the entries after the id: it pushes
each and stops once the batch has `count` of them, so a count of zero reads them all. -/
def readTimelineFrom (count : ℕ) : List (ℕ × TxnPointer) → List TxnPointer → List TxnPointer
  | [], batch => batch
  | (_, p) :: rest, batch =>
    if (batch ++ [p]).length = count then batch ++ [p] else readTimelineFrom count rest (batch ++ [p])

/-- `TimelineIndex::read_timeline`: the transactions after `timelineId`, at most `count`. -/
def readTimeline (t : TimelineIndex) (timelineId count : ℕ) : List TxnPointer :=
  readTimelineFrom count (t.timeline.filter (fun e => decide (timelineId < e.1))) []

/-- `TimelineIndex::insert`: the transaction takes the next id, which its state records. -/
def insert (t : TimelineIndex) (txn : MempoolTransaction) : TimelineIndex × MempoolTransaction :=
  ({ timelineId := t.timelineId + 1,
     timeline := SortedMap.insert t.timelineId (txn.getSender, txn.getSequenceNumber) t.timeline },
    { txn with timelineState := .ready t.timelineId })

/-- `TimelineIndex::remove`: the entry of the id the transaction's state records. -/
def remove (t : TimelineIndex) (txn : MempoolTransaction) : TimelineIndex :=
  match txn.timelineState with
  | .ready timelineId => { t with timeline := SortedMap.erase timelineId t.timeline }
  | _ => t

def size (t : TimelineIndex) : ℕ := t.timeline.length

end TimelineIndex

/-! ## The parking lot -/

/-- `ParkingLotIndex`: a vector of the accounts with parked transactions and their
sequence numbers, each account's place in it, and the number of parked transactions. -/
structure ParkingLotIndex where
  data : List (AccountAddress × List (ℕ × Unit))
  accountIndices : List (AccountAddress × ℕ)
  size : ℕ
deriving DecidableEq, Repr

/-- `Vec::swap_remove`: the last element takes the place of the removed one. -/
def swapRemove {α : Type} (l : List α) (i : ℕ) : List α :=
  match l.getLast? with
  | some last => if i + 1 < l.length then (l.set i last).dropLast else l.dropLast
  | none => l

namespace ParkingLotIndex

def new : ParkingLotIndex := ⟨[], [], 0⟩

/-- `ParkingLotIndex::insert`. When the account has a place without an entry, the source
logs the broken invariant and leaves the index as it is. -/
def insert (p : ParkingLotIndex) (txn : MempoolTransaction) : ParkingLotIndex :=
  let sender := txn.txn.sender
  let sequenceNumber := txn.txn.sequenceNumber
  match SortedMap.get? sender p.accountIndices with
  | some index =>
    match p.data[index]? with
    | some (account, seqNums) =>
      let isNewEntry := (SortedMap.get? sequenceNumber seqNums).isNone
      { p with data := p.data.set index (account, SortedMap.insert sequenceNumber () seqNums),
               size := if isNewEntry then p.size + 1 else p.size }
    | none => p
  | none =>
    let data := p.data ++ [(sender, [(sequenceNumber, ())])]
    { data := data, accountIndices := SortedMap.insert sender (data.length - 1) p.accountIndices,
      size := p.size + 1 }

/-- `ParkingLotIndex::remove`; an account left without parked transactions gives its place
to the last account of the vector. -/
def remove (p : ParkingLotIndex) (txn : MempoolTransaction) : ParkingLotIndex :=
  let sender := txn.txn.sender
  match SortedMap.get? sender p.accountIndices with
  | some index =>
    match p.data[index]? with
    | some (account, txns) =>
      let removed := (SortedMap.get? txn.txn.sequenceNumber txns).isSome
      let txns := SortedMap.erase txn.txn.sequenceNumber txns
      let size := if removed then p.size - 1 else p.size
      if txns.isEmpty then
        let data := swapRemove p.data index
        let accountIndices := SortedMap.erase sender p.accountIndices
        let accountIndices := match data[index]? with
          | some (swappedAccount, _) => SortedMap.insert swappedAccount index accountIndices
          | none => accountIndices
        { data := data, accountIndices := accountIndices, size := size }
      else { p with data := p.data.set index (account, txns), size := size }
    | none => p
  | none => p

def contains (p : ParkingLotIndex) (account : AccountAddress) (seqNum : ℕ) : Bool :=
  match (SortedMap.get? account p.accountIndices).bind (fun idx => p.data[idx]?) with
  | some (_, txns) => (SortedMap.get? seqNum txns).isSome
  | none => false

/-- `ParkingLotIndex::get_poppable`: the highest parked sequence number of an account the
random generator picks; `pick` stands for its choice. -/
def getPoppable (p : ParkingLotIndex) (pick : ℕ) : Option TxnPointer :=
  match p.data[pick % p.data.length]? with
  | some (sender, txns) => txns.getLast?.map (fun e => (sender, e.1))
  | none => none

end ParkingLotIndex

end Dijets.Mempool
