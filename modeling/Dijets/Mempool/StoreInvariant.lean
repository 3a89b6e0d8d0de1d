import Dijets.Mempool.TransactionStore

/-!
# The expiration indexes of the transaction store hold exactly its transactions

Over every run of the store's operations, from any configuration, with any current
sequence numbers, any random picks of the parked transaction to evict and any clock times,
each of the two expiration indexes holds exactly one key for each stored transaction, the
key of its own clock, and no other key; every key of the priority index is a stored
transaction's; and every timeline entry names a stored transaction whose state records the
entry's id (`TransactionStore.Reachable.invariant`).

Each index is consistent with a predicate of transactions (`TTLIndex.Inv`,
`PriorityIndex.Inv`, `TimelineIndex.Inv`): a transaction leaving an index changes the
predicate by taking out its position. Between the update of an account's transactions and
the index removals after it, the indexes are consistent with the transactions as they were,
which is how the batch removals of `clean_committed_transactions`, `reject_transaction` and
`gc` are proved.

## Main definitions

* `TransactionStore.Stored` — the transactions the store holds.
* `TransactionStore.Invariant` — the account maps are sorted by their keys, and the
  indexes are consistent with the stored transactions.
* `TransactionStore.Reachable` — the stores the operations reach.
-/

set_option autoImplicit false

namespace Dijets.Mempool

open Dijets.Lib

/-- Where the store keeps a transaction: its sender and sequence number. -/
def MempoolTransaction.pos (t : MempoolTransaction) : TxnPointer := (t.getSender, t.getSequenceNumber)

theorem MempoolTransaction.pos_eq (t : MempoolTransaction) : t.pos = (t.getSender, t.getSequenceNumber) :=
  rfl

/-- At most one transaction of `P` at each position. -/
def UniquePos (P : MempoolTransaction → Prop) : Prop :=
  ∀ t u, P t → P u → t.pos = u.pos → t = u

/-- A predicate with a position taken out. -/
def Without (P : MempoolTransaction → Prop) (t : MempoolTransaction) : MempoolTransaction → Prop :=
  fun u => P u ∧ u.pos ≠ t.pos

theorem without_eq (P : MempoolTransaction → Prop) (t : MempoolTransaction) :
    Without P t = fun u => P u ∧ u.pos ≠ t.pos := rfl

theorem UniquePos.without {P : MempoolTransaction → Prop} (hu : UniquePos P) (t : MempoolTransaction) :
    UniquePos (Without P t) :=
  fun a b ha hb hab => hu a b ha.1 hb.1 hab

/-! ## The expiration indexes against a set of transactions -/

namespace TTLIndex

variable {idx : TTLIndex} {c : ExpirationClock} {P Q : MempoolTransaction → Prop}
  {t : MempoolTransaction}

/-- A key names its transaction's position. -/
theorem pos_of_makeKey_eq {u : MempoolTransaction} (h : idx.makeKey t = idx.makeKey u) :
    t.pos = u.pos := by
  simp only [makeKey, TTLOrderingKey.mk.injEq] at h
  simp [MempoolTransaction.pos_eq, h.2.1, h.2.2]

@[simp] theorem makeKey_setTimelineState (st : TimelineState) :
    idx.makeKey { t with timelineState := st } = idx.makeKey t := by
  rcases idx with ⟨data, _ | _⟩ <;> rfl

/-- The index holds, under its clock, the keys of exactly the transactions of `P`. -/
structure Inv (idx : TTLIndex) (c : ExpirationClock) (P : MempoolTransaction → Prop) : Prop where
  clock_eq : idx.clock = c
  sorted : SortedMap.Sorted idx.data
  keys_iff : ∀ k, k ∈ idx.keys ↔ ∃ u, P u ∧ idx.makeKey u = k

/-- Predicates with the same keys. -/
theorem Inv.congr (h : idx.Inv c P)
    (hPQ : ∀ k, (∃ u, P u ∧ idx.makeKey u = k) ↔ ∃ u, Q u ∧ idx.makeKey u = k) :
    idx.Inv c Q :=
  ⟨h.clock_eq, h.sorted, fun k => (h.keys_iff k).trans (hPQ k)⟩

theorem Inv.insert (h : idx.Inv c P) : (idx.insert t).Inv c (fun u => P u ∨ u = t) := by
  refine ⟨h.clock_eq, SortedMap.sorted_insert h.sorted, fun k => ?_⟩
  simp only [keys, TTLIndex.insert, makeKey] at h ⊢
  rw [SortedMap.mem_keys_insert, ← keys, h.keys_iff]
  constructor
  · rintro (rfl | ⟨u, hu, rfl⟩)
    · exact ⟨t, Or.inr rfl, rfl⟩
    · exact ⟨u, Or.inl hu, rfl⟩
  · rintro ⟨u, hu | rfl, rfl⟩
    · exact Or.inr ⟨u, hu, rfl⟩
    · exact Or.inl rfl

/-- **Removing a transaction's key** takes its position out of the predicate, when the
transaction is the only one at its position of a larger set `P`. -/
theorem Inv.remove (h : idx.Inv c Q) (hQP : ∀ u, Q u → P u) (hu : UniquePos P) (ht : P t) :
    (idx.remove t).Inv c (Without Q t) := by
  refine ⟨h.clock_eq, SortedMap.sorted_erase h.sorted, fun k => ?_⟩
  have hkeys : k ∈ (idx.remove t).keys ↔ k ∈ idx.keys ∧ k ≠ idx.makeKey t :=
    SortedMap.mem_keys_erase h.sorted
  rw [hkeys, h.keys_iff]
  constructor
  · rintro ⟨⟨u, hQu, rfl⟩, hne⟩
    -- another key is another position: the one transaction there would have the key
    refine ⟨u, ⟨hQu, fun hpos => hne ?_⟩, rfl⟩
    rw [hu u t (hQP u hQu) ht hpos]
  · rintro ⟨u, ⟨hQu, hpos⟩, rfl⟩
    exact ⟨⟨u, hQu, rfl⟩, fun heq => hpos (pos_of_makeKey_eq heq)⟩

/-- `gc` leaves the keys of the transactions that have not expired. -/
theorem Inv.gc (h : idx.Inv c P) (now : ℕ) :
    (idx.gc now).2.Inv c (fun u => P u ∧ now ≤ (idx.makeKey u).expirationTime) := by
  refine ⟨h.clock_eq, sorted_gc_snd h.sorted, fun k => ?_⟩
  rw [mem_keys_gc_snd, h.keys_iff]
  constructor
  · rintro ⟨⟨u, hu, rfl⟩, hnow⟩
    exact ⟨u, ⟨hu, hnow⟩, rfl⟩
  · rintro ⟨u, ⟨hu, hnow⟩, rfl⟩
    exact ⟨⟨u, hu, rfl⟩, hnow⟩

/-- **The keys `gc` returns**, in any order, name stored transactions at distinct positions,
and a stored transaction at none of their positions has not expired. -/
theorem Inv.gc_expired {K : List TTLOrderingKey} {now : ℕ} (h : idx.Inv c P) (hu : UniquePos P)
    (hK : K.Perm (idx.gc now).1) :
    (∀ k ∈ K, ∃ v, P v ∧ v.pos = (k.address, k.sequenceNumber)) ∧
      (K.map fun k => (k.address, k.sequenceNumber)).Nodup ∧
      ∀ u, P u → u.pos ∉ K.map (fun k => (k.address, k.sequenceNumber)) →
        now ≤ (idx.makeKey u).expirationTime := by
  have hmem : ∀ k, k ∈ K ↔ k ∈ idx.keys ∧ k.expirationTime < now := fun k => hK.mem_iff.trans mem_gc_fst
  refine ⟨fun k hk => ?_, ?_, fun u hPu hnot => ?_⟩
  · obtain ⟨v, hv, rfl⟩ := (h.keys_iff k).mp ((hmem k).mp hk).1
    exact ⟨v, hv, rfl⟩
  · -- the keys are distinct, and keys of one position are of one transaction
    have hnodup : (idx.gc now).1.Nodup :=
      (SortedMap.Sorted.nodup_keys h.sorted).sublist (List.filter_sublist.map Prod.fst)
    refine (hK.nodup_iff.mpr hnodup).map_on fun k hk k' hk' hkk => ?_
    obtain ⟨v, hv, rfl⟩ := (h.keys_iff k).mp ((hmem k).mp hk).1
    obtain ⟨v', hv', rfl⟩ := (h.keys_iff k').mp ((hmem k').mp hk').1
    rw [hu v v' hv hv' hkk]
  · by_contra hexp
    exact hnot (List.mem_map_of_mem ((hmem _).mpr ⟨(h.keys_iff _).mpr ⟨u, hPu, rfl⟩, not_le.mp hexp⟩))

end TTLIndex

/-! ## The priority index and the timeline against a set of transactions -/

namespace PriorityIndex

variable {p : PriorityIndex} {P Q : MempoolTransaction → Prop} {t : MempoolTransaction}

/-- The keys of the index. -/
def keys (p : PriorityIndex) : List OrderedQueueKey := p.data.map Prod.fst

theorem pos_of_makeKey_eq {u : MempoolTransaction} (h : makeKey t = makeKey u) : t.pos = u.pos := by
  simp only [makeKey, OrderedQueueKey.mk.injEq] at h
  simp [MempoolTransaction.pos_eq, h.2.2.1, h.2.2.2.1]

@[simp] theorem makeKey_setTimelineState (st : TimelineState) :
    makeKey { t with timelineState := st } = makeKey t := rfl

/-- Every key of the index is the key of a transaction of `P`. -/
structure Inv (p : PriorityIndex) (P : MempoolTransaction → Prop) : Prop where
  sorted : SortedMap.Sorted p.data
  keys_mem : ∀ k ∈ p.keys, ∃ u, P u ∧ makeKey u = k

theorem Inv.mono (h : p.Inv P) (hPQ : ∀ u, P u → ∃ v, Q v ∧ makeKey v = makeKey u) : p.Inv Q :=
  ⟨h.sorted, fun k hk => by
    obtain ⟨u, hu, rfl⟩ := h.keys_mem k hk
    exact hPQ u hu⟩

theorem Inv.insert (h : p.Inv P) (ht : P t) : (p.insert t).Inv P := by
  refine ⟨SortedMap.sorted_insert h.sorted, fun k hk => ?_⟩
  rcases SortedMap.mem_keys_insert.mp hk with rfl | hk
  · exact ⟨t, ht, rfl⟩
  · exact h.keys_mem k hk

theorem Inv.remove (h : p.Inv P) : (p.remove t).Inv P :=
  ⟨SortedMap.sorted_erase h.sorted, fun k hk =>
    h.keys_mem k ((SortedMap.mem_keys_erase h.sorted).mp hk).1⟩

/-- Removing a transaction's key takes its position out of the predicate. -/
theorem Inv.remove_without (h : p.Inv Q) (hQP : ∀ u, Q u → P u) (hu : UniquePos P) (ht : P t) :
    (p.remove t).Inv (Without Q t) := by
  refine ⟨SortedMap.sorted_erase h.sorted, fun k hk => ?_⟩
  obtain ⟨hk, hne⟩ := (SortedMap.mem_keys_erase h.sorted).mp hk
  obtain ⟨u, hQu, rfl⟩ := h.keys_mem k hk
  refine ⟨u, ⟨hQu, fun hpos => hne ?_⟩, rfl⟩
  rw [hu u t (hQP u hQu) ht hpos]

end PriorityIndex

namespace TimelineIndex

variable {tl : TimelineIndex} {P Q : MempoolTransaction → Prop} {t : MempoolTransaction}

/-- Every entry of the timeline names the position of a transaction of `P` whose state
records the entry's id. -/
structure Inv (tl : TimelineIndex) (P : MempoolTransaction → Prop) : Prop where
  sorted : SortedMap.Sorted tl.timeline
  entries : ∀ e ∈ tl.timeline, ∃ u, P u ∧ u.pos = e.2 ∧ u.timelineState = .ready e.1

theorem Inv.mono (h : tl.Inv P) (hPQ : ∀ u, P u → Q u) : tl.Inv Q :=
  ⟨h.sorted, fun e he => by
    obtain ⟨u, hu, hpos, hst⟩ := h.entries e he
    exact ⟨u, hPQ u hu, hpos, hst⟩⟩

/-- A removal only drops entries. -/
theorem timeline_remove_subset {e : ℕ × TxnPointer} (he : e ∈ (tl.remove t).timeline) :
    e ∈ tl.timeline := by
  unfold remove at he
  split at he
  · exact SortedMap.mem_of_mem_erase he
  · exact he

theorem sorted_remove (h : SortedMap.Sorted tl.timeline) : SortedMap.Sorted (tl.remove t).timeline := by
  unfold remove
  split
  · exact SortedMap.sorted_erase h
  · exact h

theorem Inv.remove (h : tl.Inv P) : (tl.remove t).Inv P :=
  ⟨sorted_remove h.sorted, fun e he => h.entries e (timeline_remove_subset he)⟩

/-- **Removing a transaction's entry** takes its position out of the predicate: an entry
naming its position has the id its state records, which the removal takes out. -/
theorem Inv.remove_without (h : tl.Inv Q) (hQP : ∀ u, Q u → P u) (hu : UniquePos P) (ht : P t) :
    (tl.remove t).Inv (Without Q t) := by
  refine ⟨sorted_remove h.sorted, fun e he => ?_⟩
  obtain ⟨u, hQu, hpos, hst⟩ := h.entries e (timeline_remove_subset he)
  refine ⟨u, ⟨hQu, fun hut => ?_⟩, hpos, hst⟩
  have hut : u = t := hu u t (hQP u hQu) ht hut
  subst hut
  unfold TimelineIndex.remove at he
  rw [hst] at he
  exact ((SortedMap.mem_erase h.sorted).mp he).2 rfl

/-- **An insertion** gives the transaction, `NotReady` before, the next id; the entries
before name other positions, as no transaction there was `Ready`. -/
theorem Inv.insert (h : tl.Inv P) (hu : UniquePos P) (ht : P t)
    (hnr : t.timelineState = .notReady) :
    (tl.insert t).1.Inv (fun u => Without P t u ∨ u = (tl.insert t).2) := by
  refine ⟨SortedMap.sorted_insert h.sorted, fun e he => ?_⟩
  rcases (SortedMap.mem_insert h.sorted).mp he with rfl | ⟨he, -⟩
  · exact ⟨(tl.insert t).2, Or.inr rfl, rfl, rfl⟩
  · obtain ⟨u, hPu, hpos, hst⟩ := h.entries e he
    refine ⟨u, Or.inl ⟨hPu, fun hut => ?_⟩, hpos, hst⟩
    rw [hu u t hPu ht hut, hnr] at hst
    cases hst

end TimelineIndex

/-! ## The store -/

namespace TransactionStore

variable {s s' : TransactionStore} {a : AccountAddress} {txns : AccountTransactions}
  {t u : MempoolTransaction} {P₁ P₂ P Q₁ Q₂ Q : MempoolTransaction → Prop}

/-- The transactions the store holds: each in its sender's map, at its sequence number. -/
def Stored (s : TransactionStore) (t : MempoolTransaction) : Prop :=
  ∃ txns, s.accountTxns t.getSender = some txns ∧ SortedMap.get? t.getSequenceNumber txns = some t

theorem stored_iff : s.Stored t ↔
    ∃ txns, s.accountTxns t.getSender = some txns ∧ SortedMap.get? t.getSequenceNumber txns = some t :=
  Iff.rfl

theorem uniquePos_stored (s : TransactionStore) : UniquePos s.Stored := by
  rintro t u ⟨txns, ht, htq⟩ ⟨txns', hu, huq⟩ hpos
  obtain ⟨hsender, hseq⟩ := Prod.ext_iff.mp hpos
  have htxns : txns = txns' := by
    rw [show t.getSender = u.getSender from hsender, hu] at ht
    exact (Option.some.inj ht).symm
  rw [show u.getSequenceNumber = t.getSequenceNumber from hseq.symm, ← htxns, htq] at huq
  exact Option.some.inj huq

/-- The map of accounts and each account's map are sorted, and each transaction stands
under its sender and its sequence number. -/
structure MapInv (s : TransactionStore) : Prop where
  sorted : SortedMap.Sorted s.transactions
  accountSorted : ∀ a txns, s.accountTxns a = some txns → SortedMap.Sorted txns
  accountKeys : ∀ a txns, s.accountTxns a = some txns →
    ∀ e ∈ txns, e.2.getSender = a ∧ e.2.getSequenceNumber = e.1

/-- The four indexes against the transactions: the expiration indexes hold the keys of
exactly `P₁` and `P₂`, and the priority index and the timeline name only transactions of
`P`. -/
structure IndexInv (s : TransactionStore) (P₁ P₂ P : MempoolTransaction → Prop) : Prop where
  systemTtl : s.systemTtlIndex.Inv .system P₁
  expirationTime : s.expirationTimeIndex.Inv .client P₂
  priority : s.priorityIndex.Inv P
  timeline : s.timelineIndex.Inv P

/-- **The invariant of the store**: its maps are sorted by their keys, and its indexes are
consistent with its transactions. -/
structure Invariant (s : TransactionStore) : Prop where
  map : s.MapInv
  index : s.IndexInv s.Stored s.Stored s.Stored

/-! ### Frames -/

theorem accountTxns_setAccountTxns_self : (s.setAccountTxns a txns).accountTxns a = some txns :=
  SortedMap.get?_insert_self

theorem accountTxns_setAccountTxns_ne {a' : AccountAddress} (h : a' ≠ a) :
    (s.setAccountTxns a txns).accountTxns a' = s.accountTxns a' :=
  SortedMap.get?_insert_ne h

/-- What the store holds depends on its map of accounts only. -/
theorem stored_of_transactions_eq (he : s'.transactions = s.transactions) : s'.Stored = s.Stored := by
  funext u
  simp only [stored_iff, accountTxns_eq, he]

theorem MapInv.of_transactions_eq (h : s.MapInv) (he : s'.transactions = s.transactions) :
    s'.MapInv := by
  obtain ⟨h₁, h₂, h₃⟩ := h
  exact ⟨he ▸ h₁, fun a txns ha => h₂ a txns (by simpa [accountTxns_eq, he] using ha),
    fun a txns ha => h₃ a txns (by simpa [accountTxns_eq, he] using ha)⟩

theorem IndexInv.setAccountTxns (h : s.IndexInv P₁ P₂ P) (a : AccountAddress)
    (txns : AccountTransactions) : (s.setAccountTxns a txns).IndexInv P₁ P₂ P :=
  ⟨h.1, h.2, h.3, h.4⟩

theorem IndexInv.setParkingLotIndex (h : s.IndexInv P₁ P₂ P) (p : ParkingLotIndex) :
    ({ s with parkingLotIndex := p } : TransactionStore).IndexInv P₁ P₂ P :=
  ⟨h.1, h.2, h.3, h.4⟩

theorem Invariant.setParkingLotIndex (h : s.Invariant) (p : ParkingLotIndex) :
    ({ s with parkingLotIndex := p } : TransactionStore).Invariant :=
  ⟨h.map.of_transactions_eq rfl, h.index.setParkingLotIndex p⟩

theorem IndexInv.congr (h : s.IndexInv P₁ P₂ P) (h₁ : ∀ u, P₁ u ↔ Q₁ u) (h₂ : ∀ u, P₂ u ↔ Q₂ u)
    (h₃ : ∀ u, P u ↔ Q u) : s.IndexInv Q₁ Q₂ Q := by
  obtain rfl : P₁ = Q₁ := funext fun u => propext (h₁ u)
  obtain rfl : P₂ = Q₂ := funext fun u => propext (h₂ u)
  obtain rfl : P = Q := funext fun u => propext (h₃ u)
  exact h

/-- The stored transactions after an account's map is replaced. -/
theorem stored_setAccountTxns : (s.setAccountTxns a txns).Stored u ↔
    (u.getSender = a ∧ SortedMap.get? u.getSequenceNumber txns = some u) ∨
      (u.getSender ≠ a ∧ s.Stored u) := by
  rw [stored_iff, stored_iff]
  by_cases h : u.getSender = a
  · rw [h, accountTxns_setAccountTxns_self]
    simp
  · rw [accountTxns_setAccountTxns_ne h]
    simp [h]

theorem MapInv.setAccountTxns (h : s.MapInv) (hsorted : SortedMap.Sorted txns)
    (hkeys : ∀ e ∈ txns, e.2.getSender = a ∧ e.2.getSequenceNumber = e.1) :
    (s.setAccountTxns a txns).MapInv := by
  refine ⟨SortedMap.sorted_insert h.sorted, fun a' txns' ha' => ?_, fun a' txns' ha' => ?_⟩
  · by_cases haa : a' = a
    · subst haa
      rw [accountTxns_setAccountTxns_self] at ha'
      exact Option.some.inj ha' ▸ hsorted
    · rw [accountTxns_setAccountTxns_ne haa] at ha'
      exact h.accountSorted a' txns' ha'
  · by_cases haa : a' = a
    · subst haa
      rw [accountTxns_setAccountTxns_self] at ha'
      exact Option.some.inj ha' ▸ hkeys
    · rw [accountTxns_setAccountTxns_ne haa] at ha'
      exact h.accountKeys a' txns' ha'

/-- A transaction of an account's map is stored. -/
theorem MapInv.stored_of_get? (h : s.MapInv) (hs : s.accountTxns a = some txns) {q : ℕ}
    (ht : SortedMap.get? q txns = some t) : s.Stored t ∧ t.getSender = a ∧ t.getSequenceNumber = q := by
  obtain ⟨hsender, hseq⟩ := h.accountKeys a txns hs (q, t)
    ((SortedMap.get?_eq_some_iff (h.accountSorted a txns hs)).mp ht)
  refine ⟨⟨txns, ?_, ?_⟩, hsender, hseq⟩
  · rw [hsender]
    exact hs
  · rw [hseq]
    exact ht

/-! ### Removals -/

theorem IndexInv.indexRemove (h : s.IndexInv P₁ P₂ P) (h₁ : ∀ u, P₁ u → P u) (h₂ : ∀ u, P₂ u → P u)
    (hu : UniquePos P) (ht : P t) :
    (s.indexRemove t).IndexInv (Without P₁ t) (Without P₂ t) (Without P t) :=
  ⟨h.systemTtl.remove h₁ hu ht, h.expirationTime.remove h₂ hu ht,
    h.priority.remove_without (fun _ h => h) hu ht, h.timeline.remove_without (fun _ h => h) hu ht⟩

@[simp] theorem transactions_foldl_indexRemove (R : List (ℕ × MempoolTransaction)) :
    (R.foldl (fun s e => s.indexRemove e.2) s).transactions = s.transactions := by
  induction R generalizing s with
  | nil => rfl
  | cons e rest ih => exact ih

/-- **Removals from the indexes one after the other** take the removed positions out of
the predicates. -/
theorem IndexInv.foldl_indexRemove {R : List (ℕ × MempoolTransaction)} (h : s.IndexInv P₁ P₂ P)
    (h₁ : ∀ u, P₁ u → P u) (h₂ : ∀ u, P₂ u → P u) (hu : UniquePos P) (hR : ∀ e ∈ R, P e.2)
    (hnd : (R.map fun e => e.2.pos).Nodup) :
    (R.foldl (fun s e => s.indexRemove e.2) s).IndexInv
      (fun u => P₁ u ∧ u.pos ∉ R.map fun e => e.2.pos) (fun u => P₂ u ∧ u.pos ∉ R.map fun e => e.2.pos)
      (fun u => P u ∧ u.pos ∉ R.map fun e => e.2.pos) := by
  induction R generalizing s P₁ P₂ P with
  | nil => exact h.congr (by simp) (by simp) (by simp)
  | cons e rest ih =>
    rw [List.map_cons, List.nodup_cons] at hnd
    -- the other removed transactions stand at other positions, so they stay in the predicate
    have hrest : ∀ e' ∈ rest, Without P e.2 e'.2 := by
      intro e' he'
      refine ⟨hR e' (List.mem_cons_of_mem _ he'), fun hpos => hnd.1 ?_⟩
      rw [← hpos]
      exact List.mem_map_of_mem he'
    have hstep := ih (h.indexRemove h₁ h₂ hu (hR e List.mem_cons_self))
      (fun u hu' => ⟨h₁ u hu'.1, hu'.2⟩) (fun u hu' => ⟨h₂ u hu'.1, hu'.2⟩) (hu.without e.2)
      hrest hnd.2
    refine hstep.congr ?_ ?_ ?_ <;> intro u <;> simp [without_eq, and_assoc]

/-- The stored transactions after one leaves its account's map. -/
theorem stored_removeTxn (hs : s.accountTxns a = some txns) (hsorted : SortedMap.Sorted txns)
    (ht : t.getSender = a) : (s.removeTxn a txns t).Stored u ↔ Without s.Stored t u := by
  show (s.setAccountTxns a (SortedMap.erase t.getSequenceNumber txns)).Stored u ↔ _
  rw [stored_setAccountTxns, SortedMap.get?_erase hsorted]
  by_cases hu : u.getSender = a
  · have hstored : s.Stored u ↔ SortedMap.get? u.getSequenceNumber txns = some u := by
      simp [stored_iff, hu, hs]
    simp only [without_eq, hstored, MempoolTransaction.pos_eq, hu, ht, ne_eq, Prod.mk.injEq, true_and]
    split_ifs <;> simp_all
  · have hpos : u.pos ≠ t.pos := fun h => hu (by rw [← ht]; exact congrArg Prod.fst h)
    simp [without_eq, hu, hpos]

theorem MapInv.removeTxn (h : s.MapInv) (hs : s.accountTxns a = some txns) :
    (s.removeTxn a txns t).MapInv :=
  (h.setAccountTxns (SortedMap.sorted_erase (h.accountSorted a txns hs)) fun e he =>
    h.accountKeys a txns hs e (SortedMap.mem_of_mem_erase he)).of_transactions_eq rfl

/-- **Taking out one stored transaction** takes its position out of the indexes'
predicates. -/
theorem IndexInv.removeTxn (hm : s.MapInv) (h : s.IndexInv P₁ P₂ s.Stored)
    (h₁ : ∀ u, P₁ u → s.Stored u) (h₂ : ∀ u, P₂ u → s.Stored u) (hs : s.accountTxns a = some txns)
    {q : ℕ} (ht : SortedMap.get? q txns = some t) :
    (s.removeTxn a txns t).IndexInv (Without P₁ t) (Without P₂ t) (s.removeTxn a txns t).Stored := by
  obtain ⟨htStored, hsender, -⟩ := hm.stored_of_get? hs ht
  have hidx := (h.setAccountTxns a (SortedMap.erase t.getSequenceNumber txns)).indexRemove h₁ h₂
    (uniquePos_stored s) htStored
  exact hidx.congr (fun _ => Iff.rfl) (fun _ => Iff.rfl)
    fun u => (stored_removeTxn hs (hm.accountSorted a txns hs) hsender).symm

theorem Invariant.removeTxn (h : s.Invariant) (hs : s.accountTxns a = some txns) {q : ℕ}
    (ht : SortedMap.get? q txns = some t) : (s.removeTxn a txns t).Invariant := by
  obtain ⟨-, hsender, -⟩ := h.map.stored_of_get? hs ht
  have hiff : ∀ u, Without s.Stored t u ↔ (s.removeTxn a txns t).Stored u :=
    fun u => (stored_removeTxn hs (h.map.accountSorted a txns hs) hsender).symm
  exact ⟨h.map.removeTxn hs,
    (h.index.removeTxn h.map (fun _ h => h) (fun _ h => h) hs ht).congr hiff hiff fun _ => Iff.rfl⟩

/-- A second replacement of an account's map overrides the first. -/
theorem setAccountTxns_setAccountTxns {txns' : AccountTransactions} :
    (s.setAccountTxns a txns).setAccountTxns a txns' = s.setAccountTxns a txns' := by
  simp [setAccountTxns, SortedMap.insert_insert]

/-- The positions of the transactions of an account's map that pass a test on their
sequence numbers. -/
theorem MapInv.mem_pos_filter_iff (h : s.MapInv) (hs : s.accountTxns a = some txns)
    (hu : s.Stored u) (p : ℕ → Bool) :
    u.pos ∈ (txns.filter fun e => p e.1).map (fun e => e.2.pos) ↔
      u.getSender = a ∧ p u.getSequenceNumber = true := by
  have hsorted := h.accountSorted a txns hs
  simp only [List.mem_map, List.mem_filter]
  constructor
  · rintro ⟨e, ⟨he, hp⟩, hpos⟩
    obtain ⟨hsender, hseq⟩ := h.accountKeys a txns hs e he
    obtain ⟨hpos₁, hpos₂⟩ := Prod.ext_iff.mp hpos
    refine ⟨hpos₁.symm.trans hsender, ?_⟩
    rw [← show e.2.getSequenceNumber = u.getSequenceNumber from hpos₂, hseq]
    exact hp
  · rintro ⟨hsender, hp⟩
    obtain ⟨txns', hs', hq⟩ := hu
    rw [hsender, hs] at hs'
    cases hs'
    exact ⟨(u.getSequenceNumber, u), ⟨(SortedMap.get?_eq_some_iff hsorted).mp hq, hp⟩, rfl⟩

/-- The transactions of part of an account's map stand at distinct positions. -/
theorem MapInv.nodup_pos (h : s.MapInv) (hs : s.accountTxns a = some txns)
    {R : List (ℕ × MempoolTransaction)} (hR : R.Sublist txns) : (R.map fun e => e.2.pos).Nodup := by
  have hkeys : (R.map Prod.fst).Nodup :=
    ((h.accountSorted a txns hs).nodup_keys).sublist (hR.map Prod.fst)
  have hpos : (R.map fun e => e.2.pos) = (R.map Prod.fst).map (Prod.mk a) := by
    rw [List.map_map]
    refine List.map_congr_left fun e he => ?_
    obtain ⟨hsender, hseq⟩ := h.accountKeys a txns hs e (hR.subset he)
    simp [MempoolTransaction.pos_eq, hsender, hseq]
  rw [hpos]
  exact hkeys.map (Prod.mk_right_injective a)

/-- The transactions of an account's map are stored. -/
theorem MapInv.stored_of_mem (h : s.MapInv) (hs : s.accountTxns a = some txns)
    {e : ℕ × MempoolTransaction} (he : e ∈ txns) : s.Stored e.2 :=
  (h.stored_of_get? hs ((SortedMap.get?_eq_some_iff (h.accountSorted a txns hs)).mpr he)).1

/-! ### Clean-up of committed transactions and rejection -/

/-- `clean_committed_transactions` takes out the account's transactions below the
sequence number. -/
theorem stored_cleanCommittedTransactions (h : s.MapInv) (q : ℕ) :
    (s.cleanCommittedTransactions a q).Stored u ↔
      s.Stored u ∧ ¬ (u.getSender = a ∧ u.getSequenceNumber < q) := by
  unfold cleanCommittedTransactions
  cases hs : s.accountTxns a with
  | none =>
    -- the account has no transactions to keep or take out
    refine ⟨fun hu => ⟨hu, fun ⟨hsender, _⟩ => ?_⟩, fun hu => hu.1⟩
    obtain ⟨txns, hu', -⟩ := hu
    rw [hsender, hs] at hu'
    cases hu'
  | some txns =>
    dsimp only
    rw [stored_of_transactions_eq (transactions_foldl_indexRemove _), stored_setAccountTxns,
      SortedMap.get?_filter_key (h.accountSorted a txns hs) fun k => decide (q ≤ k)]
    by_cases hsender : u.getSender = a
    · have hstored : s.Stored u ↔ SortedMap.get? u.getSequenceNumber txns = some u := by
        simp [stored_iff, hsender, hs]
      rw [hstored]
      by_cases hq : q ≤ u.getSequenceNumber <;> simp [hsender, hq]
    · simp [hsender]

theorem Invariant.cleanCommittedTransactions (h : s.Invariant) (a : AccountAddress) (q : ℕ) :
    (s.cleanCommittedTransactions a q).Invariant := by
  have hstored : ∀ u, (s.cleanCommittedTransactions a q).Stored u ↔
      s.Stored u ∧ ¬ (u.getSender = a ∧ u.getSequenceNumber < q) :=
    fun u => stored_cleanCommittedTransactions h.map q
  unfold TransactionStore.cleanCommittedTransactions at hstored ⊢
  cases hs : s.accountTxns a with
  | none => exact h
  | some txns =>
    simp only [hs] at hstored ⊢
    have hR : (txns.filter fun e => decide (e.1 < q)).Sublist txns := List.filter_sublist
    refine ⟨?_, ?_⟩
    · exact (h.map.setAccountTxns (List.Pairwise.sublist List.filter_sublist (h.map.accountSorted a txns hs))
        (fun e he => h.map.accountKeys a txns hs e (List.mem_filter.mp he).1)).of_transactions_eq
        (transactions_foldl_indexRemove _)
    · -- the indexes lose the transactions below the sequence number, one by one
      have hidx := (h.index.setAccountTxns a (txns.filter fun e => decide (q ≤ e.1))).foldl_indexRemove
        (fun _ h => h) (fun _ h => h) (uniquePos_stored s)
        (fun e he => h.map.stored_of_mem hs (hR.subset he)) (h.map.nodup_pos hs hR)
      refine hidx.congr ?_ ?_ ?_ <;> intro u <;> rw [hstored u] <;>
        exact ⟨fun ⟨hu, hnot⟩ => ⟨hu, fun ⟨hsender, hq⟩ =>
            hnot ((h.map.mem_pos_filter_iff hs hu fun k => decide (k < q)).mpr ⟨hsender, by simpa using hq⟩)⟩,
          fun ⟨hu, hnot⟩ => ⟨hu, fun hmem =>
            hnot (by simpa using (h.map.mem_pos_filter_iff hs hu fun k => decide (k < q)).mp hmem)⟩⟩

/-- `reject_transaction` takes out all the account's transactions. -/
theorem stored_rejectTransaction (h : s.MapInv) (q : ℕ) :
    (s.rejectTransaction a q).Stored u ↔ s.Stored u ∧ u.getSender ≠ a := by
  unfold rejectTransaction
  cases hs : s.accountTxns a with
  | none =>
    refine ⟨fun hu => ⟨hu, fun hsender => ?_⟩, fun hu => hu.1⟩
    obtain ⟨txns, hu', -⟩ := hu
    rw [hsender, hs] at hu'
    cases hu'
  | some txns =>
    dsimp only
    rw [stored_of_transactions_eq (transactions_foldl_indexRemove _)]
    simp only [stored_iff, accountTxns_eq]
    rw [SortedMap.get?_erase h.sorted]
    by_cases hsender : u.getSender = a
    · simp [hsender]
    · simp [hsender]

theorem Invariant.rejectTransaction (h : s.Invariant) (a : AccountAddress) (q : ℕ) :
    (s.rejectTransaction a q).Invariant := by
  have hstored : ∀ u, (s.rejectTransaction a q).Stored u ↔ s.Stored u ∧ u.getSender ≠ a :=
    fun u => stored_rejectTransaction h.map q
  unfold TransactionStore.rejectTransaction at hstored ⊢
  cases hs : s.accountTxns a with
  | none => exact h
  | some txns =>
    simp only [hs] at hstored ⊢
    refine ⟨?_, ?_⟩
    · -- the other accounts keep their maps
      have herase : ∀ a' txns', SortedMap.get? a' (SortedMap.erase a s.transactions) = some txns' →
          s.accountTxns a' = some txns' := by
        intro a' txns' ha'
        rw [SortedMap.get?_erase h.map.sorted] at ha'
        split_ifs at ha'
        exact ha'
      have hmap : ({ s with transactions := SortedMap.erase a s.transactions } : TransactionStore).MapInv :=
        ⟨SortedMap.sorted_erase h.map.sorted,
          fun a' txns' ha' => h.map.accountSorted a' txns' (herase a' txns' ha'),
          fun a' txns' ha' => h.map.accountKeys a' txns' (herase a' txns' ha')⟩
      exact hmap.of_transactions_eq (transactions_foldl_indexRemove _)
    · -- the indexes lose the account's transactions, one by one
      have hidx₀ : ({ s with transactions := SortedMap.erase a s.transactions } : TransactionStore).IndexInv
          s.Stored s.Stored s.Stored := ⟨h.index.1, h.index.2, h.index.3, h.index.4⟩
      have hidx := hidx₀.foldl_indexRemove (fun _ h => h) (fun _ h => h) (uniquePos_stored s)
        (fun e he => h.map.stored_of_mem hs he) (h.map.nodup_pos hs (List.Sublist.refl _))
      refine hidx.congr ?_ ?_ ?_ <;> intro u <;> rw [hstored u] <;>
        exact and_congr_right fun hu => by
          simpa using (h.map.mem_pos_filter_iff hs hu fun _ => true).not

/-! ### Promotion -/

/-- **A `NotReady` transaction enters the timeline**: it takes the timeline's next id,
which its state records in its account's map. -/
theorem Invariant.timelineInsert (h : s.Invariant) (hs : s.accountTxns a = some txns) {q : ℕ}
    (ht : SortedMap.get? q txns = some t) (hnr : t.timelineState = .notReady) :
    (({ s with timelineIndex := (s.timelineIndex.insert t).1 } : TransactionStore).setAccountTxns a
      (SortedMap.insert q (s.timelineIndex.insert t).2 txns)).Invariant := by
  have hsorted := h.map.accountSorted a txns hs
  obtain ⟨htStored, hsender, hseq⟩ := h.map.stored_of_get? hs ht
  -- the transaction with its new state, at the same position
  set t' := (s.timelineIndex.insert t).2 with ht'
  have hpos : t'.pos = t.pos := rfl
  have hframe : ({ s with timelineIndex := (s.timelineIndex.insert t).1 } : TransactionStore).Stored =
      s.Stored := stored_of_transactions_eq rfl
  have hstored : ∀ u, (({ s with timelineIndex := (s.timelineIndex.insert t).1 } :
      TransactionStore).setAccountTxns a (SortedMap.insert q t' txns)).Stored u ↔
        Without s.Stored t u ∨ u = t' := by
    intro u
    rw [stored_setAccountTxns, hframe]
    by_cases hu : u.getSender = a
    · have hstoredu : s.Stored u ↔ SortedMap.get? u.getSequenceNumber txns = some u := by
        simp [stored_iff, hu, hs]
      by_cases hq : u.getSequenceNumber = q
      · have hupos : u.pos = t.pos := by simp [MempoolTransaction.pos_eq, hu, hq, hsender, hseq]
        rw [hq, SortedMap.get?_insert_self]
        simp only [without_eq, hupos, ne_eq, not_true_eq_false, and_false, false_or, hu, true_and,
          Option.some.injEq, false_and, or_false]
        exact eq_comm
      · have hupos : u.pos ≠ t.pos := by simp [MempoolTransaction.pos_eq, hu, hq, hsender, hseq]
        have hut' : u ≠ t' := fun h => hupos (h ▸ hpos)
        rw [SortedMap.get?_insert_ne hq]
        simp [without_eq, hstoredu, hupos, hut', hu]
    · have hupos : u.pos ≠ t.pos := fun h => hu (by rw [← hsender]; exact congrArg Prod.fst h)
      have hut' : u ≠ t' := fun h => hupos (h ▸ hpos)
      simp [without_eq, hu, hupos, hut']
  have hmap : ({ s with timelineIndex := (s.timelineIndex.insert t).1 } : TransactionStore).MapInv :=
    h.map.of_transactions_eq rfl
  refine ⟨?_, ?_⟩
  · refine hmap.setAccountTxns (SortedMap.sorted_insert hsorted) ?_
    intro e he
    rcases SortedMap.mem_of_mem_insert he with rfl | he
    · exact ⟨hsender, hseq⟩
    · exact h.map.accountKeys a txns hs e he
  · -- a stored transaction at the promoted position is the promoted one, of the same keys
    have hkeys : ∀ (f : MempoolTransaction → TTLOrderingKey), (∀ st, f { t with timelineState := st } = f t) →
        ∀ k, (∃ v, s.Stored v ∧ f v = k) ↔ ∃ v, (Without s.Stored t v ∨ v = t') ∧ f v = k := by
      intro f hf k
      constructor
      · rintro ⟨v, hv, rfl⟩
        by_cases hvt : v.pos = t.pos
        · rw [uniquePos_stored s v t hv htStored hvt]
          exact ⟨t', Or.inr rfl, hf _⟩
        · exact ⟨v, Or.inl ⟨hv, hvt⟩, rfl⟩
      · rintro ⟨v, hv | rfl, rfl⟩
        · exact ⟨v, hv.1, rfl⟩
        · exact ⟨t, htStored, (hf _).symm⟩
    refine IndexInv.congr ⟨?_, ?_, ?_, ?_⟩
      (fun u => (hstored u).symm) (fun u => (hstored u).symm) (fun u => (hstored u).symm)
    · exact h.index.systemTtl.congr (hkeys _ fun _ => TTLIndex.makeKey_setTimelineState _)
    · exact h.index.expirationTime.congr (hkeys _ fun _ => TTLIndex.makeKey_setTimelineState _)
    · refine h.index.priority.mono fun v hv => ?_
      by_cases hvt : v.pos = t.pos
      · rw [uniquePos_stored s v t hv htStored hvt]
        exact ⟨t', Or.inr rfl, rfl⟩
      · exact ⟨v, Or.inl ⟨hv, hvt⟩, rfl⟩
    · exact h.index.timeline.insert (uniquePos_stored s) htStored hnr

theorem Invariant.insertPriority (h : s.Invariant) (ht : s.Stored t) :
    ({ s with priorityIndex := s.priorityIndex.insert t } : TransactionStore).Invariant :=
  ⟨h.map.of_transactions_eq rfl, ⟨h.index.1, h.index.2, h.index.3.insert ht, h.index.4⟩⟩

/-- An account's map put back as it is. -/
theorem setAccountTxns_self (hsorted : SortedMap.Sorted s.transactions)
    (hs : s.accountTxns a = some txns) : s.setAccountTxns a txns = s := by
  unfold setAccountTxns
  rw [SortedMap.insert_eq_self hsorted hs]

/-- **The promotion loop** keeps the invariant of the store with the account's map as the
loop holds it. The induction is on the fuel; the map of accounts the loop carries along is
the one it started from, sorted. -/
theorem Invariant.promote (fuel : ℕ) : ∀ (s : TransactionStore) (txns : AccountTransactions) (q : ℕ),
    SortedMap.Sorted s.transactions → (s.setAccountTxns a txns).Invariant →
      ((TransactionStore.promote fuel s txns q).1.setAccountTxns a
        (TransactionStore.promote fuel s txns q).2.1).Invariant := by
  induction fuel with
  | zero => exact fun _ _ _ _ h => h
  | succ fuel ih =>
    intro s txns q hsorted h
    have hs : (s.setAccountTxns a txns).accountTxns a = some txns := accountTxns_setAccountTxns_self
    unfold TransactionStore.promote
    cases hq : SortedMap.get? q txns with
    | none => exact h
    | some txn =>
      dsimp only
      obtain ⟨htxn, -, -⟩ := h.map.stored_of_get? hs hq
      have h₁ := h.insertPriority htxn
      split_ifs with hnr
      · -- the transaction enters the timeline, and its account's map records its id
        let Y : TransactionStore :=
          { s with priorityIndex := s.priorityIndex.insert txn, timelineIndex := (s.timelineIndex.insert txn).1 }
        have h₂ : ((Y.setAccountTxns a txns).setAccountTxns a
            (SortedMap.insert q (s.timelineIndex.insert txn).2 txns)).Invariant :=
          h₁.timelineInsert hs hq hnr
        rw [setAccountTxns_setAccountTxns] at h₂
        exact ih _ _ _ hsorted (h₂.setParkingLotIndex _)
      · exact ih _ _ _ hsorted (h₁.setParkingLotIndex _)

theorem Invariant.processReadyTransactions (h : s.Invariant) (a : AccountAddress) (q : ℕ) :
    (s.processReadyTransactions a q).Invariant := by
  unfold TransactionStore.processReadyTransactions
  cases hs : s.accountTxns a with
  | none => exact h
  | some txns =>
    dsimp only
    have h₀ : (s.setAccountTxns a txns).Invariant := by
      rw [setAccountTxns_self h.map.sorted hs]
      exact h
    exact (h₀.promote txns.length s txns q h.map.sorted).setParkingLotIndex _

theorem Invariant.commitTransaction (h : s.Invariant) (a : AccountAddress) (q : ℕ) :
    (s.commitTransaction a q).Invariant :=
  (h.cleanCommittedTransactions a q).processReadyTransactions a q

/-! ### Insertion -/

/-- After the update check no stored transaction stands at the new one's position. -/
theorem Invariant.checkUpdate (h : s.Invariant) (hc : s.checkUpdate t = .ok s') :
    s'.Invariant ∧ ∀ u, s'.Stored u → u.pos ≠ t.pos := by
  -- the position is free when the account holds nothing there
  have hfree : (∀ txns, s.accountTxns t.getSender = some txns →
      SortedMap.get? t.getSequenceNumber txns = none) → ∀ u, s.Stored u → u.pos ≠ t.pos := by
    rintro hnone u ⟨txns, hu, huq⟩ hpos
    obtain ⟨hsender, hseq⟩ := Prod.ext_iff.mp hpos
    rw [show u.getSender = t.getSender from hsender] at hu
    rw [show u.getSequenceNumber = t.getSequenceNumber from hseq, hnone txns hu] at huq
    cases huq
  unfold TransactionStore.checkUpdate at hc
  dsimp only at hc
  cases hs : s.accountTxns t.getSender with
  | none =>
    rw [hs] at hc
    cases hc
    exact ⟨h, hfree fun txns h' => by rw [hs] at h'; cases h'⟩
  | some txns =>
    rw [hs] at hc
    dsimp only at hc
    cases hq : SortedMap.get? t.getSequenceNumber txns with
    | none =>
      rw [hq] at hc
      cases hc
      exact ⟨h, hfree fun txns' h' => by rw [hs] at h'; cases h'; exact hq⟩
    | some currentVersion =>
      rw [hq] at hc
      dsimp only at hc
      -- the two statuses are returned at once; what goes on replaces the current version
      split_ifs at hc with hsame hreplace
      cases hc
      obtain ⟨-, hsender, hseq⟩ := h.map.stored_of_get? hs hq
      refine ⟨h.removeTxn hs hq, fun u hu hpos => ?_⟩
      have hu' := (stored_removeTxn hs (h.map.accountSorted _ _ hs) hsender).mp hu
      exact hu'.2 (hpos.trans (by simp [MempoolTransaction.pos_eq, hsender, hseq]))

/-- The eviction of a parked transaction only takes transactions out. -/
theorem Invariant.evictParked (h : s.Invariant) (pick : ℕ) :
    (s.evictParked pick).Invariant ∧ ∀ u, (s.evictParked pick).Stored u → s.Stored u := by
  unfold TransactionStore.evictParked
  cases hp : s.parkingLotIndex.getPoppable pick with
  | none => exact ⟨h, fun _ hu => hu⟩
  | some ptr =>
    obtain ⟨address, q⟩ := ptr
    dsimp only
    cases hs : s.accountTxns address with
    | none => exact ⟨h, fun _ hu => hu⟩
    | some txns =>
      dsimp only
      cases hq : SortedMap.get? q txns with
      | none => exact ⟨h, fun _ hu => hu⟩
      | some txn =>
        obtain ⟨-, hsender, -⟩ := h.map.stored_of_get? hs hq
        exact ⟨h.removeTxn hs hq, fun u hu =>
          ((stored_removeTxn hs (h.map.accountSorted _ _ hs) hsender).mp hu).1⟩

theorem Invariant.checkIsFullAfterEviction {q pick : ℕ} {full : Bool} (h : s.Invariant)
    (hc : s.checkIsFullAfterEviction t q pick = some (s', full)) :
    s'.Invariant ∧ ∀ u, s'.Stored u → s.Stored u := by
  unfold TransactionStore.checkIsFullAfterEviction at hc
  split_ifs at hc with hcap
  · cases hr : s.checkTxnReady t q with
    | none =>
      rw [hr] at hc
      cases hc
    | some ready =>
      rw [hr] at hc
      obtain ⟨rfl, -⟩ := Prod.mk.inj (Option.some.inj hc)
      cases ready
      · exact ⟨h, fun _ hu => hu⟩
      · exact h.evictParked pick
  · obtain ⟨rfl, -⟩ := Prod.mk.inj (Option.some.inj hc)
    exact ⟨h, fun _ hu => hu⟩

/-- An account with no transactions yet gets an empty map, which holds nothing. -/
theorem stored_orInsertAccount :
    ({ s with transactions := SortedMap.orInsert a [] s.transactions } : TransactionStore).Stored u ↔
      s.Stored u := by
  unfold SortedMap.orInsert
  cases hs : SortedMap.get? a s.transactions with
  | some _ => exact Iff.rfl
  | none =>
    show (s.setAccountTxns a []).Stored u ↔ _
    rw [stored_setAccountTxns]
    by_cases hu : u.getSender = a
    · -- the account had no map, so it held nothing
      have hnot : ¬ s.Stored u := by
        rintro ⟨txns, hu', -⟩
        rw [hu] at hu'
        exact absurd (hu'.symm.trans hs) (by simp)
      simp [hu, hnot, SortedMap.get?]
    · simp [hu]

theorem Invariant.orInsertAccount (h : s.Invariant) (a : AccountAddress) :
    ({ s with transactions := SortedMap.orInsert a [] s.transactions } : TransactionStore).Invariant := by
  have hstored : ({ s with transactions := SortedMap.orInsert a [] s.transactions } :
      TransactionStore).Stored = s.Stored := funext fun u => propext stored_orInsertAccount
  refine ⟨?_, ?_⟩
  · unfold SortedMap.orInsert
    cases hs : SortedMap.get? a s.transactions with
    | some _ => exact h.map.of_transactions_eq rfl
    | none => exact h.map.setAccountTxns SortedMap.sorted_nil (by simp)
  · rw [hstored]
    exact ⟨h.index.1, h.index.2, h.index.3, h.index.4⟩

/-- **A new transaction at a free position** enters the account's map and the expiration
indexes. -/
theorem Invariant.insertTxn (h : s.Invariant) (hs : s.accountTxns t.getSender = some txns)
    (hfree : ∀ u, s.Stored u → u.pos ≠ t.pos) :
    (({ s with systemTtlIndex := s.systemTtlIndex.insert t,
                expirationTimeIndex := s.expirationTimeIndex.insert t } : TransactionStore).setAccountTxns
      t.getSender (SortedMap.insert t.getSequenceNumber t txns)).Invariant := by
  have hsorted := h.map.accountSorted _ txns hs
  set S : TransactionStore := { s with systemTtlIndex := s.systemTtlIndex.insert t,
                                       expirationTimeIndex := s.expirationTimeIndex.insert t } with hS
  have hstored : ∀ u, (S.setAccountTxns t.getSender (SortedMap.insert t.getSequenceNumber t txns)).Stored u ↔
      s.Stored u ∨ u = t := by
    intro u
    rw [stored_setAccountTxns]
    show _ ∨ _ ∧ s.Stored u ↔ _
    by_cases hu : u.getSender = t.getSender
    · have hstoredu : s.Stored u ↔ SortedMap.get? u.getSequenceNumber txns = some u := by
        simp [stored_iff, hu, hs]
      by_cases hq : u.getSequenceNumber = t.getSequenceNumber
      · -- the new transaction's position, where nothing was stored
        have hupos : u.pos = t.pos := by simp [MempoolTransaction.pos_eq, hu, hq]
        have hnot : ¬ s.Stored u := fun hsu => hfree u hsu hupos
        rw [hq, SortedMap.get?_insert_self]
        simp only [hu, true_and, Option.some.injEq, ne_eq, not_true_eq_false, false_and, or_false,
          hnot, false_or]
        exact eq_comm
      · have hut : u ≠ t := fun h => hq (h ▸ rfl)
        rw [SortedMap.get?_insert_ne hq]
        simp [hu, hstoredu, hut]
    · have hut : u ≠ t := fun h => hu (h ▸ rfl)
      simp [hu, hut]
  have hmap : S.MapInv := h.map.of_transactions_eq rfl
  refine ⟨hmap.setAccountTxns (SortedMap.sorted_insert hsorted) ?_, ?_⟩
  · intro e he
    rcases SortedMap.mem_of_mem_insert he with rfl | he
    · exact ⟨rfl, rfl⟩
    · exact h.map.accountKeys _ txns hs e he
  · refine IndexInv.congr ⟨h.index.1.insert, h.index.2.insert,
      h.index.3.mono fun v hv => ⟨v, Or.inl hv, rfl⟩, h.index.4.mono fun v hv => Or.inl hv⟩
      (fun u => (hstored u).symm) (fun u => (hstored u).symm) (fun u => (hstored u).symm)

/-- **`insert` keeps the invariant**, whatever it returns. -/
theorem Invariant.insert {q pick : ℕ} {status : MempoolStatus} (h : s.Invariant)
    (hi : s.insert t q pick = some (s', status)) : s'.Invariant := by
  unfold TransactionStore.insert at hi
  cases hc : s.checkUpdate t with
  | error st =>
    rw [hc] at hi
    obtain ⟨rfl, -⟩ := Prod.mk.inj (Option.some.inj hi)
    exact h
  | ok s₁ =>
    rw [hc] at hi
    dsimp only at hi
    obtain ⟨h₁, hfree₁⟩ := h.checkUpdate hc
    cases hf : s₁.checkIsFullAfterEviction t q pick with
    | none =>
      rw [hf] at hi
      cases hi
    | some r =>
      obtain ⟨s₂, full⟩ := r
      obtain ⟨h₂, hsub₂⟩ := h₁.checkIsFullAfterEviction hf
      rw [hf] at hi
      simp only [Option.map_some, Option.some.injEq] at hi
      split_ifs at hi with hfull
      · obtain ⟨rfl, -⟩ := Prod.mk.inj hi
        exact h₂
      · -- the account's map, created if need be and cleaned up
        have h₄ := (h₂.orInsertAccount t.getSender).cleanCommittedTransactions t.getSender q
        have hfree₄ : ∀ u, (({ s₂ with transactions := SortedMap.orInsert t.getSender [] s₂.transactions } :
            TransactionStore).cleanCommittedTransactions t.getSender q).Stored u → u.pos ≠ t.pos := by
          intro u hu
          have hu₃ := ((stored_cleanCommittedTransactions (h₂.orInsertAccount t.getSender).map q).mp hu).1
          exact hfree₁ u (hsub₂ u (Iff.mp stored_orInsertAccount hu₃))
        split at hi
        · rename_i txns hs
          split_ifs at hi
          · obtain ⟨rfl, -⟩ := Prod.mk.inj hi
            exact h₄
          · obtain ⟨rfl, -⟩ := Prod.mk.inj hi
            exact (h₄.insertTxn hs hfree₄).processReadyTransactions _ _
        · obtain ⟨rfl, -⟩ := Prod.mk.inj hi
          exact h₄.processReadyTransactions _ _

/-! ### Garbage collection -/

/-- Parking the transactions after an expired one only takes keys out of the priority
index and entries out of the timeline. -/
theorem IndexInv.foldl_park (h : s.IndexInv P₁ P₂ P) (L : AccountTransactions) :
    (L.foldl (fun s e => { s with parkingLotIndex := s.parkingLotIndex.insert e.2,
                                  priorityIndex := s.priorityIndex.remove e.2,
                                  timelineIndex := s.timelineIndex.remove e.2 }) s).IndexInv P₁ P₂ P ∧
      (L.foldl (fun s e => { s with parkingLotIndex := s.parkingLotIndex.insert e.2,
                                    priorityIndex := s.priorityIndex.remove e.2,
                                    timelineIndex := s.timelineIndex.remove e.2 }) s).transactions =
        s.transactions := by
  induction L generalizing s with
  | nil => exact ⟨h, rfl⟩
  | cons e rest ih => exact ih ⟨h.1, h.2, h.3.remove, h.4.remove⟩

theorem IndexInv.parkFollowing (h : s.IndexInv P₁ P₂ P) (txns : AccountTransactions)
    (k : TTLOrderingKey) (next : Option TTLOrderingKey) :
    (s.parkFollowing txns k next).IndexInv P₁ P₂ P ∧
      (s.parkFollowing txns k next).transactions = s.transactions :=
  h.foldl_park _

/-- The positions of expiration keys. -/
def keyPositions (K : List TTLOrderingKey) : List TxnPointer :=
  K.map fun k => (k.address, k.sequenceNumber)

/-- **The loop of `gc`.** When each expired key names a stored transaction, at distinct
positions, the loop takes those transactions out of the store and out of every index. The
induction is on the keys. -/
theorem gcKeys_spec (K : List TTLOrderingKey) : ∀ (s : TransactionStore) (P₁ P₂ : MempoolTransaction → Prop),
    s.MapInv → s.IndexInv P₁ P₂ s.Stored → (∀ u, P₁ u → s.Stored u) → (∀ u, P₂ u → s.Stored u) →
    (∀ k ∈ K, ∃ v, s.Stored v ∧ v.pos = (k.address, k.sequenceNumber)) → (keyPositions K).Nodup →
    (s.gcKeys K).MapInv ∧
      (s.gcKeys K).IndexInv (fun u => P₁ u ∧ u.pos ∉ keyPositions K)
        (fun u => P₂ u ∧ u.pos ∉ keyPositions K) (s.gcKeys K).Stored ∧
      ∀ u, (s.gcKeys K).Stored u ↔ s.Stored u ∧ u.pos ∉ keyPositions K := by
  induction K with
  | nil =>
    intro s P₁ P₂ hm h _ _ _ _
    exact ⟨hm, h.congr (by simp [keyPositions]) (by simp [keyPositions]) (fun _ => Iff.rfl),
      by simp [keyPositions, gcKeys]⟩
  | cons k rest ih =>
    intro s P₁ P₂ hm h h₁ h₂ hK hnd
    rw [keyPositions, List.map_cons, List.nodup_cons] at hnd
    -- the first key's transaction, in its account's map
    obtain ⟨v, ⟨txns, hs, hvq⟩, hvpos⟩ := hK k List.mem_cons_self
    rw [show v.getSender = k.address from congrArg Prod.fst hvpos] at hs
    rw [show v.getSequenceNumber = k.sequenceNumber from congrArg Prod.snd hvpos] at hvq
    obtain ⟨hpark, hparkT⟩ := h.parkFollowing txns k rest.head?
    have hm₁ := hm.of_transactions_eq hparkT
    have hstored₁ := stored_of_transactions_eq hparkT
    rw [← hstored₁] at hpark h₁ h₂
    have hs₁ : (s.parkFollowing txns k rest.head?).accountTxns k.address = some txns := by
      simpa [accountTxns_eq, hparkT] using hs
    have hidx₂ := hpark.removeTxn hm₁ h₁ h₂ hs₁ hvq
    have hstored₂ : ∀ u, ((s.parkFollowing txns k rest.head?).removeTxn k.address txns v).Stored u ↔
        s.Stored u ∧ u.pos ≠ v.pos := by
      intro u
      rw [stored_removeTxn hs₁ (hm₁.accountSorted _ _ hs₁) (congrArg Prod.fst hvpos), without_eq, hstored₁]
    -- the other keys' transactions stand at other positions, and stay
    have hK₂ : ∀ k' ∈ rest, ∃ w, ((s.parkFollowing txns k rest.head?).removeTxn k.address txns v).Stored w ∧
        w.pos = (k'.address, k'.sequenceNumber) := by
      intro k' hk'
      obtain ⟨w, hw, hwpos⟩ := hK k' (List.mem_cons_of_mem _ hk')
      refine ⟨w, (hstored₂ w).mpr ⟨hw, fun hwv => hnd.1 ?_⟩, hwpos⟩
      rw [← hvpos, ← hwv, hwpos]
      exact List.mem_map_of_mem hk'
    obtain ⟨hm', hidx', hst'⟩ := ih _ (Without P₁ v) (Without P₂ v) (hm₁.removeTxn hs₁) hidx₂
      (fun u hu => (hstored₂ u).mpr ⟨hstored₁ ▸ h₁ u hu.1, hu.2⟩)
      (fun u hu => (hstored₂ u).mpr ⟨hstored₁ ▸ h₂ u hu.1, hu.2⟩) hK₂ hnd.2
    have hgc : s.gcKeys (k :: rest) =
        ((s.parkFollowing txns k rest.head?).removeTxn k.address txns v).gcKeys rest := by
      simp only [gcKeys, hs, hvq]
    rw [hgc]
    have hpos : ∀ u : MempoolTransaction,
        u.pos ∉ keyPositions (k :: rest) ↔ u.pos ≠ v.pos ∧ u.pos ∉ keyPositions rest := by
      intro u
      simp [keyPositions, hvpos]
    refine ⟨hm', hidx'.congr ?_ ?_ (fun _ => Iff.rfl), fun u => ?_⟩
    · intro u
      rw [hpos u]
      simp only [without_eq, and_assoc]
    · intro u
      rw [hpos u]
      simp only [without_eq, and_assoc]
    · rw [hst' u, hstored₂ u, hpos u, and_assoc]

/-- **`gc` keeps the invariant**: the expired keys' transactions leave the store and every
index, the one garbage-collected included. -/
theorem Invariant.gc (h : s.Invariant) (now : ℕ) (bySystemTtl : Bool) :
    (s.gc now bySystemTtl).Invariant := by
  unfold TransactionStore.gc
  cases bySystemTtl with
  | true =>
    let s₀ : TransactionStore := { s with systemTtlIndex := (s.systemTtlIndex.gc now).2 }
    show (s₀.gcKeys ((s.systemTtlIndex.gc now).1.insertionSort fun a b : TTLOrderingKey =>
      toLex (a.address, a.sequenceNumber) ≤ toLex (b.address, b.sequenceNumber))).Invariant
    obtain ⟨hK, hnd, hexp⟩ := h.index.systemTtl.gc_expired (uniquePos_stored s)
      (List.perm_insertionSort (fun a b : TTLOrderingKey =>
        toLex (a.address, a.sequenceNumber) ≤ toLex (b.address, b.sequenceNumber)) (s.systemTtlIndex.gc now).1)
    have hm₀ : s₀.MapInv := h.map.of_transactions_eq rfl
    have h₀ : s₀.IndexInv (fun u => s.Stored u ∧ now ≤ (s.systemTtlIndex.makeKey u).expirationTime)
        s₀.Stored s₀.Stored :=
      ⟨h.index.1.gc now, h.index.2, h.index.3, h.index.4⟩
    obtain ⟨hm, hidx, hst⟩ := gcKeys_spec _ s₀ _ _ hm₀ h₀ (fun _ hu => hu.1) (fun _ hu => hu) hK hnd
    refine ⟨hm, hidx.congr (fun u => ?_) (fun u => ?_) fun _ => Iff.rfl⟩ <;> rw [hst u]
    -- a stored transaction that no expired key names has not expired
    exact ⟨fun ⟨⟨hu, _⟩, hn⟩ => ⟨hu, hn⟩, fun ⟨hu, hn⟩ => ⟨⟨hu, hexp u hu hn⟩, hn⟩⟩
  | false =>
    let s₀ : TransactionStore := { s with expirationTimeIndex := (s.expirationTimeIndex.gc now).2 }
    show (s₀.gcKeys ((s.expirationTimeIndex.gc now).1.insertionSort fun a b : TTLOrderingKey =>
      toLex (a.address, a.sequenceNumber) ≤ toLex (b.address, b.sequenceNumber))).Invariant
    obtain ⟨hK, hnd, hexp⟩ := h.index.expirationTime.gc_expired (uniquePos_stored s)
      (List.perm_insertionSort (fun a b : TTLOrderingKey =>
        toLex (a.address, a.sequenceNumber) ≤ toLex (b.address, b.sequenceNumber)) (s.expirationTimeIndex.gc now).1)
    have hm₀ : s₀.MapInv := h.map.of_transactions_eq rfl
    have h₀ : s₀.IndexInv s₀.Stored
        (fun u => s.Stored u ∧ now ≤ (s.expirationTimeIndex.makeKey u).expirationTime) s₀.Stored :=
      ⟨h.index.1, h.index.2.gc now, h.index.3, h.index.4⟩
    obtain ⟨hm, hidx, hst⟩ := gcKeys_spec _ s₀ _ _ hm₀ h₀ (fun _ hu => hu) (fun _ hu => hu.1) hK hnd
    refine ⟨hm, hidx.congr (fun u => ?_) (fun u => ?_) fun _ => Iff.rfl⟩ <;> rw [hst u]
    exact ⟨fun ⟨⟨hu, _⟩, hn⟩ => ⟨hu, hn⟩, fun ⟨hu, hn⟩ => ⟨⟨hu, hexp u hu hn⟩, hn⟩⟩

/-! ### Runs -/

/-- The stores the operations reach from a new one; `read_timeline` and `get` change
nothing. A panicking `insert` ends the run. -/
inductive Reachable : TransactionStore → Prop
  | new (config : MempoolConfig) : Reachable (TransactionStore.new config)
  | insert {s s' : TransactionStore} {txn : MempoolTransaction} {currentSequenceNumber pick : ℕ}
      {status : MempoolStatus} :
      Reachable s → s.insert txn currentSequenceNumber pick = some (s', status) → Reachable s'
  | commitTransaction {s : TransactionStore} (account : AccountAddress) (accountSequenceNumber : ℕ) :
      Reachable s → Reachable (s.commitTransaction account accountSequenceNumber)
  | rejectTransaction {s : TransactionStore} (account : AccountAddress) (sequenceNumber : ℕ) :
      Reachable s → Reachable (s.rejectTransaction account sequenceNumber)
  | gcBySystemTtl {s : TransactionStore} (now : ℕ) :
      Reachable s → Reachable (s.gcBySystemTtl now)
  | gcByExpirationTime {s : TransactionStore} (blockTime : ℕ) :
      Reachable s → Reachable (s.gcByExpirationTime blockTime)

theorem invariant_new (config : MempoolConfig) : (TransactionStore.new config).Invariant := by
  have hnone : ∀ a, (TransactionStore.new config).accountTxns a = none := fun _ => rfl
  have hstored : ∀ u, ¬ (TransactionStore.new config).Stored u := by
    rintro u ⟨txns, h, -⟩
    rw [hnone] at h
    cases h
  refine ⟨⟨SortedMap.sorted_nil, fun a txns h => ?_, fun a txns h => ?_⟩,
    ⟨⟨rfl, SortedMap.sorted_nil, fun k => ?_⟩, ⟨rfl, SortedMap.sorted_nil, fun k => ?_⟩,
      ⟨SortedMap.sorted_nil, fun k hk => ?_⟩, ⟨SortedMap.sorted_nil, fun e he => ?_⟩⟩⟩
  · rw [hnone] at h
    cases h
  · rw [hnone] at h
    cases h
  · exact ⟨fun hk => by simp [TTLIndex.keys, TransactionStore.new, TTLIndex.new] at hk,
      fun h => h.elim fun u hu => absurd hu.1 (hstored u)⟩
  · exact ⟨fun hk => by simp [TTLIndex.keys, TransactionStore.new, TTLIndex.new] at hk,
      fun h => h.elim fun u hu => absurd hu.1 (hstored u)⟩
  · simp [PriorityIndex.keys, TransactionStore.new, PriorityIndex.new] at hk
  · simp [TransactionStore.new, TimelineIndex.new] at he

/-- **Every reachable store keeps the invariant.** -/
theorem Reachable.invariant (h : s.Reachable) : s.Invariant := by
  induction h with
  | new config => exact invariant_new config
  | insert _ hi ih => exact ih.insert hi
  | commitTransaction account q _ ih => exact ih.commitTransaction account q
  | rejectTransaction account q _ ih => exact ih.rejectTransaction account q
  | gcBySystemTtl now _ ih => exact ih.gc now true
  | gcByExpirationTime blockTime _ ih => exact ih.gc blockTime false

/-- **The indexes agree with the stored transactions in every reachable store.** The system
expiration index holds the key of each stored transaction under its system expiration
time, and the expiration index its key under the client's expiration timestamp, each key
once and no other key; every key of the priority index is a stored transaction's, and every
timeline entry names a stored transaction whose state records the entry's id. -/
theorem reachable_indexes_consistent (h : s.Reachable) :
    (∀ k, k ∈ s.systemTtlIndex.keys ↔
      ∃ t, s.Stored t ∧ k = ⟨t.expirationTime, t.getSender, t.getSequenceNumber⟩) ∧
    (∀ k, k ∈ s.expirationTimeIndex.keys ↔
      ∃ t, s.Stored t ∧ k = ⟨durationFromSecs t.txn.expirationTimestampSecs, t.getSender,
        t.getSequenceNumber⟩) ∧
    s.systemTtlIndex.keys.Nodup ∧ s.expirationTimeIndex.keys.Nodup ∧
    (∀ k ∈ s.priorityIndex.keys, ∃ t, s.Stored t ∧ PriorityIndex.makeKey t = k) ∧
    (∀ e ∈ s.timelineIndex.timeline, ∃ t, s.Stored t ∧ t.pos = e.2 ∧ t.timelineState = .ready e.1) := by
  obtain ⟨-, hsys, hexp, hprio, htl⟩ := h.invariant
  -- each index's key is the key under its clock
  have hkey : ∀ (idx : TTLIndex) (c : ExpirationClock), idx.clock = c → ∀ t : MempoolTransaction,
      idx.makeKey t = ⟨c.getExpirationTime t, t.getSender, t.getSequenceNumber⟩ := by
    rintro idx c rfl t
    rfl
  refine ⟨fun k => ?_, fun k => ?_, hsys.sorted.nodup_keys, hexp.sorted.nodup_keys, hprio.keys_mem,
    htl.entries⟩
  · simp only [hsys.keys_iff, hkey _ _ hsys.clock_eq, ExpirationClock.getExpirationTime, eq_comm]
  · simp only [hexp.keys_iff, hkey _ _ hexp.clock_eq, ExpirationClock.getExpirationTime, eq_comm]

/-- Transaction `sequenceNumber` of account `account`, expiring at `expirationTime`. -/
def txnAt (account sequenceNumber expirationTime : ℕ) : MempoolTransaction :=
  { txn := { (default : SignedTransaction) with sender := ⟨account⟩, sequenceNumber }
    expirationTime, gasAmount := 1, rankingScore := 1, timelineState := .notReady
    governanceRole := 0 }

/-- Account 0's transactions 0 and 2 and account 1's transaction 0 are inserted while both
accounts are at sequence number 0, so that transaction 2 waits in the parking lot; account 1's,
which expires first, is collected, and account 0's transaction 0 is committed. -/
def storeRun : Option TransactionStore := do
  let r₁ ← (TransactionStore.new ⟨100, 100⟩).insert (txnAt 0 0 50) 0 0
  let r₂ ← r₁.1.insert (txnAt 0 2 50) 0 0
  let r₃ ← r₂.1.insert (txnAt 1 0 10) 0 0
  pure ((r₃.1.gcBySystemTtl 20).commitTransaction ⟨0⟩ 1)

theorem reachable_indexes_consistent_storeRun :
    ∃ s, storeRun = some s ∧ s.systemTtlIndex.keys.length = 1 ∧ s.parkingLotIndex.size = 1 ∧
    (∀ k, k ∈ s.systemTtlIndex.keys ↔
      ∃ t, s.Stored t ∧ k = ⟨t.expirationTime, t.getSender, t.getSequenceNumber⟩) ∧
    (∀ k, k ∈ s.expirationTimeIndex.keys ↔
      ∃ t, s.Stored t ∧ k = ⟨durationFromSecs t.txn.expirationTimestampSecs, t.getSender,
        t.getSequenceNumber⟩) ∧
    s.systemTtlIndex.keys.Nodup ∧ s.expirationTimeIndex.keys.Nodup ∧
    (∀ k ∈ s.priorityIndex.keys, ∃ t, s.Stored t ∧ PriorityIndex.makeKey t = k) ∧
    (∀ e ∈ s.timelineIndex.timeline, ∃ t, s.Stored t ∧ t.pos = e.2 ∧ t.timelineState = .ready e.1) := by
  obtain ⟨s, hs⟩ : ∃ s, storeRun = some s := Option.isSome_iff_exists.mp (by decide)
  -- what the run leaves: one transaction stored, and it is parked
  have hsizes : (storeRun.map fun s => (s.systemTtlIndex.keys.length, s.parkingLotIndex.size)) =
      some (1, 1) := by decide
  rw [hs, Option.map_some, Option.some.injEq, Prod.mk.injEq] at hsizes
  have hreach : s.Reachable := by
    simp only [storeRun, Option.bind_eq_bind, Option.bind_eq_some_iff, Option.pure_def,
      Option.some.injEq] at hs
    obtain ⟨r₁, h₁, r₂, h₂, r₃, h₃, rfl⟩ := hs
    exact ((((Reachable.new _).insert h₁).insert h₂).insert h₃ |>.gcBySystemTtl 20).commitTransaction
      ⟨0⟩ 1
  exact ⟨s, hs, hsizes.1, hsizes.2, reachable_indexes_consistent hreach⟩

/-- `insert` panics only for a transaction of sequence number zero that is not of the current
sequence number, which `Mempool::add_txn` turns away as below the current one. -/
theorem insert_isSome {q pick : ℕ} (hq : t.getSequenceNumber ≠ 0 ∨ t.getSequenceNumber = q) :
    (s.insert t q pick).isSome := by
  unfold TransactionStore.insert
  cases hc : s.checkUpdate t with
  | error st => rfl
  | ok s₁ =>
    simp only [Option.isSome_map]
    unfold checkIsFullAfterEviction
    split_ifs with hcap
    · -- only a full store asks whether the transaction is ready
      rw [Option.isSome_map]
      unfold checkTxnReady
      by_cases hcur : t.getSequenceNumber = q
      · simp [hcur]
      · have hzero : t.getSequenceNumber ≠ 0 := hq.resolve_right hcur
        simp only [hcur, hzero, if_false]
        split
        · split <;> rfl
        · rfl
    · rfl

end TransactionStore

end Dijets.Mempool