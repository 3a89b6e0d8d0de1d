import Dijets.Mempool.StoreInvariant

/-!
# The capacities of the transaction store, and replacement by a higher gas price

`insert` checks the store's two capacities before it adds a transaction: the system expiration
index must hold fewer keys than `capacity`, and the sender fewer transactions than
`capacity_per_user`. Every other step of every operation only takes keys and transactions out
(`Shrinks`), so in every reachable store both bounds hold (`Reachable.capacityInv`).

A transaction of a higher gas price that replaces a stored one is taken out of the store and its
indexes before those checks run. The bounds are what makes the checks pass then: the store and
the sender hold one transaction fewer than before, so neither is full, and the new version goes
in (`insert_replaces_exactly`).

## Main definitions

* `TransactionStore.seqs` — the sequence numbers an account holds.
* `TransactionStore.Shrinks` — a store holds no key or transaction another does not.
* `TransactionStore.CapacityInv` — the two capacity bounds.
-/

set_option autoImplicit false

namespace Dijets.Mempool

open Dijets.Lib

namespace TransactionStore

variable {s s' s'' : TransactionStore} {a : AccountAddress} {txns : AccountTransactions}
  {t : MempoolTransaction}

/-- The sequence numbers an account holds, none for an account without a map. -/
def seqs (s : TransactionStore) (a : AccountAddress) : List ℕ :=
  ((s.accountTxns a).map fun txns => txns.map Prod.fst).getD []

theorem seqs_eq (s : TransactionStore) (a : AccountAddress) :
    s.seqs a = ((s.accountTxns a).map fun txns => txns.map Prod.fst).getD [] := rfl

theorem seqs_of_accountTxns (hs : s.accountTxns a = some txns) : s.seqs a = txns.map Prod.fst := by
  rw [seqs_eq, hs]
  rfl

theorem seqs_of_accountTxns_none (hs : s.accountTxns a = none) : s.seqs a = [] := by
  rw [seqs_eq, hs]
  rfl

/-- `s'` holds no key of the system expiration index and no transaction that `s` does not, in
the order `s` holds them, and has the same capacities. -/
structure Shrinks (s s' : TransactionStore) : Prop where
  capacity : s'.capacity = s.capacity
  capacityPerUser : s'.capacityPerUser = s.capacityPerUser
  systemTtl : s'.systemTtlIndex.data.Sublist s.systemTtlIndex.data
  seqs : ∀ a, (s'.seqs a).Sublist (s.seqs a)

theorem Shrinks.refl (s : TransactionStore) : Shrinks s s :=
  ⟨rfl, rfl, List.Sublist.refl _, fun _ => List.Sublist.refl _⟩

theorem Shrinks.trans (h : Shrinks s s') (h' : Shrinks s' s'') : Shrinks s s'' :=
  ⟨h'.capacity.trans h.capacity, h'.capacityPerUser.trans h.capacityPerUser,
    h'.systemTtl.trans h.systemTtl, fun a => (h'.seqs a).trans (h.seqs a)⟩

/-- `s'` differs from `s` at most in the priority index, the expiration index, the timeline and
the parking lot. -/
structure SameStore (s s' : TransactionStore) : Prop where
  transactions : s'.transactions = s.transactions
  systemTtlIndex : s'.systemTtlIndex = s.systemTtlIndex
  capacity : s'.capacity = s.capacity
  capacityPerUser : s'.capacityPerUser = s.capacityPerUser

theorem SameStore.refl (s : TransactionStore) : SameStore s s := ⟨rfl, rfl, rfl, rfl⟩

theorem SameStore.trans (h : SameStore s s') (h' : SameStore s' s'') : SameStore s s'' :=
  ⟨h'.1.trans h.1, h'.2.trans h.2, h'.3.trans h.3, h'.4.trans h.4⟩

theorem SameStore.accountTxns (h : SameStore s s') (a : AccountAddress) :
    s'.accountTxns a = s.accountTxns a := by
  rw [TransactionStore.accountTxns, TransactionStore.accountTxns, h.transactions]

theorem SameStore.shrinks (h : SameStore s s') : Shrinks s s' := by
  refine ⟨h.capacity, h.capacityPerUser, ?_, fun a => ?_⟩
  · rw [h.systemTtlIndex]
  · rw [seqs_eq, seqs_eq, h.accountTxns]

/-! ## Every step but an insertion shrinks the store -/

theorem shrinks_indexRemove (t : MempoolTransaction) : Shrinks s (s.indexRemove t) :=
  ⟨rfl, rfl, SortedMap.erase_sublist, fun _ => List.Sublist.refl _⟩

theorem seqs_setAccountTxns (a' : AccountAddress) :
    (s.setAccountTxns a txns).seqs a' = if a' = a then txns.map Prod.fst else s.seqs a' := by
  split_ifs with h
  · rw [h, seqs_of_accountTxns accountTxns_setAccountTxns_self]
  · rw [seqs_eq, seqs_eq, accountTxns_setAccountTxns_ne h]

theorem shrinks_setAccountTxns (h : (txns.map Prod.fst).Sublist (s.seqs a)) :
    Shrinks s (s.setAccountTxns a txns) := by
  refine ⟨rfl, rfl, List.Sublist.refl _, fun a' => ?_⟩
  rw [seqs_setAccountTxns]
  split_ifs with ha
  · rw [ha]
    exact h
  · exact List.Sublist.refl _

theorem shrinks_removeTxn (hs : s.accountTxns a = some txns) (t : MempoolTransaction) :
    Shrinks s (s.removeTxn a txns t) := by
  refine (shrinks_setAccountTxns ?_).trans (shrinks_indexRemove t)
  rw [seqs_of_accountTxns hs]
  exact SortedMap.erase_sublist.map _

theorem shrinks_foldl_indexRemove :
    ∀ (R : List (ℕ × MempoolTransaction)) (s : TransactionStore),
      Shrinks s (R.foldl (fun s e => s.indexRemove e.2) s)
  | [], s => Shrinks.refl s
  | e :: R, _ => (shrinks_indexRemove e.2).trans (shrinks_foldl_indexRemove R _)

theorem shrinks_cleanCommittedTransactions (a : AccountAddress) (q : ℕ) :
    Shrinks s (s.cleanCommittedTransactions a q) := by
  unfold cleanCommittedTransactions
  cases hs : s.accountTxns a with
  | none => exact Shrinks.refl s
  | some txns =>
    refine (shrinks_setAccountTxns ?_).trans (shrinks_foldl_indexRemove _ _)
    rw [seqs_of_accountTxns hs]
    exact List.filter_sublist.map _

/-! ### The promotion loop -/

/-- What the promotion loop does to an account's map: the same sequence numbers, each with the
same signed transaction. -/
structure SameTxns (txns txns' : AccountTransactions) : Prop where
  keys : txns'.map Prod.fst = txns.map Prod.fst
  txn : ∀ n, (SortedMap.get? n txns').map MempoolTransaction.txn =
    (SortedMap.get? n txns).map MempoolTransaction.txn

theorem SameTxns.refl (txns : AccountTransactions) : SameTxns txns txns := ⟨rfl, fun _ => rfl⟩

theorem SameTxns.trans {txns' txns'' : AccountTransactions} (h : SameTxns txns txns')
    (h' : SameTxns txns' txns'') : SameTxns txns txns'' :=
  ⟨h'.keys.trans h.keys, fun n => (h'.txn n).trans (h.txn n)⟩

/-- The timeline's insertion only records the transaction's timeline id. -/
theorem txn_timelineIndex_insert (tl : TimelineIndex) (u : MempoolTransaction) :
    (tl.insert u).2.txn = u.txn := rfl

/-- **The promotion loop changes the states of the account's transactions and nothing else**
of what the store holds. -/
theorem promote_spec : ∀ (fuel : ℕ) (s : TransactionStore) (txns : AccountTransactions) (q : ℕ),
    SortedMap.Sorted txns → SameStore s (promote fuel s txns q).1 ∧
      SameTxns txns (promote fuel s txns q).2.1 ∧ SortedMap.Sorted (promote fuel s txns q).2.1
  | 0, s, txns, _, hsorted => ⟨SameStore.refl s, SameTxns.refl txns, hsorted⟩
  | fuel + 1, s, txns, q, hsorted => by
    cases hq : SortedMap.get? q txns with
    | none =>
      simp only [promote, hq]
      exact ⟨SameStore.refl s, SameTxns.refl txns, hsorted⟩
    | some txn =>
      by_cases hnr : txn.timelineState = .notReady
      · -- the transaction takes a timeline id, which its entry in the map records
        simp only [promote, hq, hnr, if_true]
        obtain ⟨hstore, htxns, hsorted'⟩ :=
          promote_spec fuel _ _ (q + 1) (SortedMap.sorted_insert (k := q)
            (v := (s.timelineIndex.insert txn).2) hsorted)
        refine ⟨SameStore.trans ?_ hstore,
          (SameTxns.trans ⟨SortedMap.keys_insert_of_get? hsorted hq, fun n => ?_⟩ htxns), hsorted'⟩
        · exact ⟨rfl, rfl, rfl, rfl⟩
        by_cases hn : n = q
        · rw [hn, SortedMap.get?_insert_self, hq]
          rfl
        · rw [SortedMap.get?_insert_ne hn]
      · simp only [promote, hq, hnr, if_false]
        obtain ⟨hstore, htxns, hsorted'⟩ := promote_spec fuel _ txns (q + 1) hsorted
        refine ⟨SameStore.trans ?_ hstore, htxns, hsorted'⟩
        exact ⟨rfl, rfl, rfl, rfl⟩

theorem shrinks_processReadyTransactions (h : s.MapInv) (a : AccountAddress) (q : ℕ) :
    Shrinks s (s.processReadyTransactions a q) := by
  unfold processReadyTransactions
  cases hs : s.accountTxns a with
  | none => exact Shrinks.refl s
  | some txns =>
    dsimp only
    obtain ⟨hstore, htxns, -⟩ := promote_spec txns.length s txns q (h.accountSorted a txns hs)
    have hsame : SameStore s { (promote txns.length s txns q).1 with
        parkingLotIndex := parkNotReady (promote txns.length s txns q).1.parkingLotIndex
          ((promote txns.length s txns q).2.1.filter
            fun e => decide ((promote txns.length s txns q).2.2 < e.1)) } :=
      ⟨hstore.1, hstore.2, hstore.3, hstore.4⟩
    refine hsame.shrinks.trans (shrinks_setAccountTxns ?_)
    rw [htxns.keys, seqs_eq, hsame.accountTxns, hs]
    exact List.Sublist.refl _

/-- The promotion of an account's transactions keeps every stored signed transaction. -/
theorem get_processReadyTransactions (h : s.MapInv) (a a' : AccountAddress) (q n : ℕ) :
    (s.processReadyTransactions a q).get a' n = s.get a' n := by
  unfold processReadyTransactions
  cases hs : s.accountTxns a with
  | none => rfl
  | some txns =>
    dsimp only
    obtain ⟨hstore, htxns, -⟩ := promote_spec txns.length s txns q (h.accountSorted a txns hs)
    unfold get
    by_cases ha : a' = a
    · rw [ha, accountTxns_setAccountTxns_self, hs]
      exact htxns.txn n
    · rw [accountTxns_setAccountTxns_ne ha, TransactionStore.accountTxns, hstore.transactions]
      rfl

theorem shrinks_commitTransaction (h : s.Invariant) (a : AccountAddress) (q : ℕ) :
    Shrinks s (s.commitTransaction a q) :=
  (shrinks_cleanCommittedTransactions a q).trans
    (shrinks_processReadyTransactions (h.cleanCommittedTransactions a q).map a q)

theorem shrinks_rejectTransaction (h : s.MapInv) (a : AccountAddress) (q : ℕ) :
    Shrinks s (s.rejectTransaction a q) := by
  unfold rejectTransaction
  cases hs : s.accountTxns a with
  | none => exact Shrinks.refl s
  | some txns =>
    dsimp only
    -- the account's map leaves, then its transactions leave the indexes
    have herase : Shrinks s { s with transactions := SortedMap.erase a s.transactions } := by
      refine ⟨rfl, rfl, List.Sublist.refl _, fun a' => ?_⟩
      by_cases ha : a' = a
      · rw [seqs_eq, ha]
        simp only [accountTxns_eq, SortedMap.get?_erase h.sorted, if_pos]
        exact List.nil_sublist _
      · simp only [seqs_eq, accountTxns_eq, SortedMap.get?_erase h.sorted, if_neg ha]
        exact List.Sublist.refl _
    exact herase.trans (shrinks_foldl_indexRemove _ _)

/-! ### Garbage collection -/

/-- Parking transactions touches the priority index, the timeline and the parking lot only. -/
theorem sameStore_foldl_park : ∀ (L : AccountTransactions) (s : TransactionStore),
    SameStore s (L.foldl (fun s e => { s with parkingLotIndex := s.parkingLotIndex.insert e.2,
                                              priorityIndex := s.priorityIndex.remove e.2,
                                              timelineIndex := s.timelineIndex.remove e.2 }) s)
  | [], s => SameStore.refl s
  | _ :: L, _ => by
    rw [List.foldl_cons]
    refine SameStore.trans ?_ (sameStore_foldl_park L _)
    exact ⟨rfl, rfl, rfl, rfl⟩

theorem sameStore_parkFollowing (txns : AccountTransactions) (key : TTLOrderingKey)
    (next : Option TTLOrderingKey) : SameStore s (s.parkFollowing txns key next) :=
  sameStore_foldl_park _ s

theorem shrinks_gcKeys : ∀ (K : List TTLOrderingKey) (s : TransactionStore), Shrinks s (s.gcKeys K)
  | [], s => Shrinks.refl s
  | key :: K, s => by
    unfold gcKeys
    cases hs : s.accountTxns key.address with
    | none => exact shrinks_gcKeys K s
    | some txns =>
      dsimp only
      have hpark := sameStore_parkFollowing (s := s) txns key K.head?
      cases hq : SortedMap.get? key.sequenceNumber txns with
      | none => exact hpark.shrinks.trans (shrinks_gcKeys K _)
      | some txn =>
        have hs' : (s.parkFollowing txns key K.head?).accountTxns key.address = some txns := by
          rw [hpark.accountTxns, hs]
        exact (hpark.shrinks.trans (shrinks_removeTxn hs' txn)).trans (shrinks_gcKeys K _)

theorem shrinks_gc (now : ℕ) (bySystemTtl : Bool) : Shrinks s (s.gc now bySystemTtl) := by
  unfold gc
  cases bySystemTtl with
  | true =>
    -- the expired keys leave the system index, then their transactions the store
    have hindex : Shrinks s { s with systemTtlIndex := (s.systemTtlIndex.gc now).2 } :=
      ⟨rfl, rfl, List.filter_sublist, fun _ => List.Sublist.refl _⟩
    exact hindex.trans (shrinks_gcKeys _ _)
  | false =>
    have hindex : SameStore s { s with expirationTimeIndex := (s.expirationTimeIndex.gc now).2 } :=
      ⟨rfl, rfl, rfl, rfl⟩
    exact hindex.shrinks.trans (shrinks_gcKeys _ _)

/-! ### The checks of `insert` -/

theorem shrinks_evictParked (pick : ℕ) : Shrinks s (s.evictParked pick) := by
  unfold evictParked
  cases hp : s.parkingLotIndex.getPoppable pick with
  | none => exact Shrinks.refl s
  | some ptr =>
    obtain ⟨address, q⟩ := ptr
    dsimp only
    cases hs : s.accountTxns address with
    | none => exact Shrinks.refl s
    | some txns =>
      dsimp only
      cases hq : SortedMap.get? q txns with
      | none => exact Shrinks.refl s
      | some txn => exact shrinks_removeTxn hs txn

theorem shrinks_checkUpdate (hc : s.checkUpdate t = .ok s') : Shrinks s s' := by
  unfold checkUpdate at hc
  dsimp only at hc
  cases hs : s.accountTxns t.getSender with
  | none =>
    rw [hs] at hc
    cases hc
    exact Shrinks.refl s
  | some txns =>
    rw [hs] at hc
    dsimp only at hc
    cases hq : SortedMap.get? t.getSequenceNumber txns with
    | none =>
      rw [hq] at hc
      cases hc
      exact Shrinks.refl s
    | some currentVersion =>
      rw [hq] at hc
      dsimp only at hc
      split_ifs at hc
      cases hc
      exact shrinks_removeTxn hs currentVersion

theorem shrinks_checkIsFullAfterEviction {q pick : ℕ} {full : Bool}
    (hc : s.checkIsFullAfterEviction t q pick = some (s', full)) : Shrinks s s' := by
  unfold checkIsFullAfterEviction at hc
  split_ifs at hc with hcap
  · cases hr : s.checkTxnReady t q with
    | none =>
      rw [hr] at hc
      cases hc
    | some ready =>
      rw [hr] at hc
      obtain ⟨rfl, -⟩ := Prod.mk.inj (Option.some.inj hc)
      cases ready
      · exact Shrinks.refl s
      · exact shrinks_evictParked pick
  · obtain ⟨rfl, -⟩ := Prod.mk.inj (Option.some.inj hc)
    exact Shrinks.refl s

/-- A store the check finds not full has room for one more key. -/
theorem lt_capacity_of_checkIsFullAfterEviction {q pick : ℕ}
    (hc : s.checkIsFullAfterEviction t q pick = some (s', false)) :
    s'.systemTtlIndex.size < s'.capacity := by
  unfold checkIsFullAfterEviction at hc
  split_ifs at hc with hcap
  · cases hr : s.checkTxnReady t q with
    | none =>
      rw [hr] at hc
      cases hc
    | some ready =>
      rw [hr] at hc
      obtain ⟨rfl, hfull⟩ := Prod.mk.inj (Option.some.inj hc)
      exact Nat.lt_of_not_le (of_decide_eq_false hfull)
  · obtain ⟨rfl, -⟩ := Prod.mk.inj (Option.some.inj hc)
    exact Nat.lt_of_not_le hcap

theorem shrinks_orInsertAccount (a : AccountAddress) :
    Shrinks s { s with transactions := SortedMap.orInsert a [] s.transactions } := by
  unfold SortedMap.orInsert
  cases hs : SortedMap.get? a s.transactions with
  | some _ => exact Shrinks.refl s
  | none => exact @shrinks_setAccountTxns s a [] (List.nil_sublist _)

/-! ## The capacity bounds -/

/-- **The capacities of the store**: the system expiration index holds at most `capacity` keys,
and every account at most `capacity_per_user` transactions. -/
structure CapacityInv (s : TransactionStore) : Prop where
  size_le : s.systemTtlIndex.size ≤ s.capacity
  seqs_le : ∀ a, (s.seqs a).length ≤ s.capacityPerUser

theorem CapacityInv.of_shrinks (h : s.CapacityInv) (hs : Shrinks s s') : s'.CapacityInv := by
  refine ⟨?_, fun a => ?_⟩
  · rw [hs.capacity]
    exact le_trans hs.systemTtl.length_le h.size_le
  · rw [hs.capacityPerUser]
    exact le_trans (hs.seqs a).length_le (h.seqs_le a)

theorem MapInv.insertTxn (h : s.MapInv) (hs : s.accountTxns t.getSender = some txns) :
    (({ s with systemTtlIndex := s.systemTtlIndex.insert t,
                expirationTimeIndex := s.expirationTimeIndex.insert t } : TransactionStore).setAccountTxns
      t.getSender (SortedMap.insert t.getSequenceNumber t txns)).MapInv := by
  have hmap : ({ s with systemTtlIndex := s.systemTtlIndex.insert t,
                        expirationTimeIndex := s.expirationTimeIndex.insert t } :
      TransactionStore).MapInv :=
    h.of_transactions_eq rfl
  refine hmap.setAccountTxns (SortedMap.sorted_insert (h.accountSorted _ txns hs)) fun e he => ?_
  rcases SortedMap.mem_of_mem_insert he with rfl | he
  · exact ⟨rfl, rfl⟩
  · exact h.accountKeys _ txns hs e he

/-- The one step that adds: a key into a system index with room for it, and a transaction into
an account with room for it. -/
theorem CapacityInv.insertTxn (h : s.CapacityInv) (hroom : s.systemTtlIndex.size < s.capacity)
    (huser : txns.length < s.capacityPerUser) :
    (({ s with systemTtlIndex := s.systemTtlIndex.insert t,
                expirationTimeIndex := s.expirationTimeIndex.insert t } : TransactionStore).setAccountTxns
      t.getSender (SortedMap.insert t.getSequenceNumber t txns)).CapacityInv := by
  refine ⟨?_, fun a => ?_⟩
  · have hlen := SortedMap.length_insert_le (k := s.systemTtlIndex.makeKey t) (v := ())
      (m := s.systemTtlIndex.data)
    unfold TTLIndex.size at hroom ⊢
    exact le_trans hlen hroom
  · rw [seqs_setAccountTxns]
    split_ifs with ha
    · rw [List.length_map]
      exact le_trans SortedMap.length_insert_le huser
    · exact h.seqs_le a

theorem CapacityInv.insert {q pick : ℕ} {status : MempoolStatus} (h : s.CapacityInv)
    (hm : s.Invariant) (hi : s.insert t q pick = some (s', status)) : s'.CapacityInv := by
  unfold TransactionStore.insert at hi
  cases hc : s.checkUpdate t with
  | error st =>
    rw [hc] at hi
    obtain ⟨rfl, -⟩ := Prod.mk.inj (Option.some.inj hi)
    exact h
  | ok s₁ =>
    rw [hc] at hi
    dsimp only at hi
    have h₁ := h.of_shrinks (shrinks_checkUpdate hc)
    have hm₁ := (hm.checkUpdate hc).1
    cases hf : s₁.checkIsFullAfterEviction t q pick with
    | none =>
      rw [hf] at hi
      cases hi
    | some r =>
      obtain ⟨s₂, full⟩ := r
      have h₂ := h₁.of_shrinks (shrinks_checkIsFullAfterEviction hf)
      have hm₂ := (hm₁.checkIsFullAfterEviction hf).1
      rw [hf] at hi
      simp only [Option.map_some, Option.some.injEq] at hi
      split_ifs at hi with hfull
      · obtain ⟨rfl, -⟩ := Prod.mk.inj hi
        exact h₂
      · -- not full: the account's map, created if need be and cleaned up, then the insertion
        rw [Bool.not_eq_true] at hfull
        subst hfull
        have hroom := lt_capacity_of_checkIsFullAfterEviction hf
        have hshrink := (shrinks_orInsertAccount (s := s₂) t.getSender).trans
          (shrinks_cleanCommittedTransactions t.getSender q)
        have h₄ := h₂.of_shrinks hshrink
        have hm₄ := (hm₂.orInsertAccount t.getSender).cleanCommittedTransactions t.getSender q
        split at hi
        · rename_i txns hs
          split_ifs at hi with huser
          · obtain ⟨rfl, -⟩ := Prod.mk.inj hi
            exact h₄
          · obtain ⟨rfl, -⟩ := Prod.mk.inj hi
            have hroom₄ := lt_of_lt_of_eq (lt_of_le_of_lt hshrink.systemTtl.length_le hroom)
              hshrink.capacity.symm
            exact (h₄.insertTxn hroom₄ (Nat.lt_of_not_le huser)).of_shrinks
              (shrinks_processReadyTransactions (hm₄.map.insertTxn hs) _ _)
        · obtain ⟨rfl, -⟩ := Prod.mk.inj hi
          exact h₄.of_shrinks (shrinks_processReadyTransactions hm₄.map _ _)

theorem capacityInv_new (config : MempoolConfig) : (TransactionStore.new config).CapacityInv :=
  ⟨Nat.zero_le _, fun _ => by rw [seqs_of_accountTxns_none rfl]; exact Nat.zero_le _⟩

/-- **Every reachable store keeps its capacities.** -/
theorem Reachable.capacityInv (h : s.Reachable) : s.CapacityInv := by
  induction h with
  | new config => exact capacityInv_new config
  | insert hr hi ih => exact ih.insert hr.invariant hi
  | commitTransaction account q hr ih =>
    exact ih.of_shrinks (shrinks_commitTransaction hr.invariant account q)
  | rejectTransaction account q hr ih =>
    exact ih.of_shrinks (shrinks_rejectTransaction hr.invariant.map account q)
  | gcBySystemTtl now _ ih => exact ih.of_shrinks (shrinks_gc now true)
  | gcByExpirationTime blockTime _ ih => exact ih.of_shrinks (shrinks_gc blockTime false)

/-! ## Replacement by a higher gas price -/

/-- An account that has a map keeps it when `insert` makes sure it has one. -/
theorem orInsert_of_accountTxns (hs : s.accountTxns a = some txns) :
    SortedMap.orInsert a [] s.transactions = s.transactions := by
  unfold SortedMap.orInsert
  rw [show SortedMap.get? a s.transactions = some txns from hs]

theorem accountTxns_cleanCommittedTransactions (hs : s.accountTxns a = some txns) (q : ℕ) :
    (s.cleanCommittedTransactions a q).accountTxns a =
      some (txns.filter fun e => decide (q ≤ e.1)) := by
  unfold cleanCommittedTransactions
  rw [hs]
  dsimp only
  rw [TransactionStore.accountTxns, transactions_foldl_indexRemove]
  exact accountTxns_setAccountTxns_self

/-- What the update check does with a transaction whose position holds `old`: the same signed
transaction is accepted as it is, and otherwise `old` is either replaced or kept with an
`InvalidUpdate`. -/
theorem checkUpdate_of_get? {old : MempoolTransaction} (hs : s.accountTxns t.getSender = some txns)
    (hget : SortedMap.get? t.getSequenceNumber txns = some old) :
    (old.txn = t.txn ∧ s.checkUpdate t = .error (MempoolStatus.new .accepted)) ∨
      (old.txn ≠ t.txn ∧ s.checkUpdate t = .ok (s.removeTxn t.getSender txns old)) ∨
      (old.txn ≠ t.txn ∧ ∃ message, s.checkUpdate t = .error ⟨.invalidUpdate, message⟩) := by
  unfold checkUpdate
  dsimp only
  rw [hs]
  dsimp only
  rw [hget]
  dsimp only
  split_ifs with hsame hreplace
  · exact .inl ⟨hsame, rfl⟩
  · exact .inr (.inl ⟨hsame, rfl⟩)
  · exact .inr (.inr ⟨hsame, _, rfl⟩)

/-- **A replacement goes through**: once the old version has left, the store and the sender have
room for the new one, which `insert` stores and accepts. -/
theorem insert_of_replacement {old : MempoolTransaction} {q pick : ℕ} {status : MempoolStatus}
    (hinv : s.Invariant) (hcap : s.CapacityInv) (hs : s.accountTxns t.getSender = some txns)
    (hget : SortedMap.get? t.getSequenceNumber txns = some old)
    (hc : s.checkUpdate t = .ok (s.removeTxn t.getSender txns old))
    (hi : s.insert t q pick = some (s', status)) :
    status = MempoolStatus.new .accepted ∧ s'.get t.getSender t.getSequenceNumber = some t.txn := by
  have hinv₁ := hinv.removeTxn hs hget
  -- the old version's key leaves the system index, so the store is not full
  have hmem : s.systemTtlIndex.makeKey old ∈ s.systemTtlIndex.keys :=
    (hinv.index.systemTtl.keys_iff _).mpr ⟨old, (hinv.map.stored_of_get? hs hget).1, rfl⟩
  have hsize : (s.removeTxn t.getSender txns old).systemTtlIndex.size + 1 = s.systemTtlIndex.size :=
    SortedMap.length_erase_of_mem hmem
  have hroom : ¬ (s.removeTxn t.getSender txns old).capacity ≤
      (s.removeTxn t.getSender txns old).systemTtlIndex.size := by
    have := hcap.size_le
    show ¬ s.capacity ≤ _
    omega
  have hfull : (s.removeTxn t.getSender txns old).checkIsFullAfterEviction t q pick =
      some (s.removeTxn t.getSender txns old, false) := by
    unfold checkIsFullAfterEviction
    rw [if_neg hroom]
  -- the sender's map without the old version, cleaned of committed transactions
  have haccount₁ : (s.removeTxn t.getSender txns old).accountTxns t.getSender =
      some (SortedMap.erase old.getSequenceNumber txns) := accountTxns_setAccountTxns_self
  have hseq : old.getSequenceNumber = t.getSequenceNumber :=
    (hinv.map.stored_of_get? hs hget).2.2
  rw [hseq] at haccount₁
  have haccount₄ := accountTxns_cleanCommittedTransactions haccount₁ q
  have hinv₄ := hinv₁.cleanCommittedTransactions t.getSender q
  have huser : ¬ ((s.removeTxn t.getSender txns old).cleanCommittedTransactions t.getSender q).capacityPerUser ≤
      ((SortedMap.erase t.getSequenceNumber txns).filter fun e => decide (q ≤ e.1)).length := by
    rw [(shrinks_cleanCommittedTransactions t.getSender q).capacityPerUser]
    have hfilter := List.length_filter_le (fun e : ℕ × MempoolTransaction => decide (q ≤ e.1))
      (SortedMap.erase t.getSequenceNumber txns)
    have herase := SortedMap.length_erase_of_mem (SortedMap.mem_keys_of_get? hget)
    have hlen := hcap.seqs_le t.getSender
    rw [seqs_of_accountTxns hs, List.length_map] at hlen
    show ¬ s.capacityPerUser ≤ _
    omega
  unfold TransactionStore.insert at hi
  rw [hc] at hi
  dsimp only at hi
  rw [hfull] at hi
  simp only [Option.map_some, Option.some.injEq, Bool.false_eq_true, if_false] at hi
  rw [orInsert_of_accountTxns haccount₁] at hi
  simp only [haccount₄] at hi
  rw [if_neg huser] at hi
  obtain ⟨rfl, rfl⟩ := Prod.mk.inj hi
  refine ⟨rfl, ?_⟩
  rw [get_processReadyTransactions (hinv₄.map.insertTxn haccount₄)]
  unfold get
  rw [accountTxns_setAccountTxns_self]
  simp

/-- **Replacement by a higher gas price is never lossy.** In every reachable store, inserting a
transaction at the position of a stored `old`, with a current sequence number no greater than
its own, returns `InvalidUpdate` or `Accepted`, and afterwards the position holds `old` when the
status is `InvalidUpdate` or the two are the same signed transaction, and the new one
otherwise. -/
theorem insert_replaces_exactly {old : MempoolTransaction} {q pick : ℕ} (hr : s.Reachable)
    (hold : s.Stored old) (hpos : old.pos = t.pos) (hq : q ≤ t.getSequenceNumber) :
    ∃ s' status, s.insert t q pick = some (s', status) ∧
      (status.code = .invalidUpdate ∨ status.code = .accepted) ∧
      s'.get t.getSender t.getSequenceNumber =
        some (if status.code = .invalidUpdate ∨ old.txn = t.txn then old.txn else t.txn) := by
  obtain ⟨txns, hs, hget⟩ := hold
  have hsender : old.getSender = t.getSender := congrArg Prod.fst hpos
  have hseq : old.getSequenceNumber = t.getSequenceNumber := congrArg Prod.snd hpos
  rw [hsender] at hs
  rw [hseq] at hget
  have hgetOld : s.get t.getSender t.getSequenceNumber = some old.txn := by
    unfold get
    rw [hs]
    simp [hget]
  obtain ⟨⟨s', status⟩, hi⟩ := Option.isSome_iff_exists.mp
    (@insert_isSome s t q pick (by omega))
  refine ⟨s', status, hi, ?_⟩
  rcases checkUpdate_of_get? hs hget with ⟨hsame, hc⟩ | ⟨hne, hc⟩ | ⟨hne, message, hc⟩
  · -- the same signed transaction again: accepted, nothing changes
    unfold TransactionStore.insert at hi
    rw [hc] at hi
    obtain ⟨rfl, rfl⟩ := Prod.mk.inj (Option.some.inj hi)
    rw [if_pos (Or.inr hsame)]
    exact ⟨Or.inr rfl, hgetOld⟩
  · -- the replacement
    obtain ⟨rfl, hget'⟩ := insert_of_replacement hr.invariant hr.capacityInv hs hget hc hi
    have hcond : ¬ ((MempoolStatus.new .accepted).code = .invalidUpdate ∨ old.txn = t.txn) := by
      rintro (h | h)
      · cases h
      · exact hne h
    rw [if_neg hcond]
    exact ⟨Or.inr rfl, hget'⟩
  · -- an invalid update: nothing changes
    unfold TransactionStore.insert at hi
    rw [hc] at hi
    obtain ⟨rfl, rfl⟩ := Prod.mk.inj (Option.some.inj hi)
    rw [if_pos (Or.inl rfl)]
    exact ⟨Or.inl rfl, hgetOld⟩

/-- At capacity: a store of capacity one holding `alice`'s transaction takes its version of a
higher gas price. -/
theorem insert_replaces_exactly_at_capacity :
    ∃ s, (TransactionStore.new ⟨1, 1⟩).insert (aliceTxn 0 10) 0 0 =
        some (s, MempoolStatus.new .accepted) ∧
      s.Reachable ∧ s.Stored { aliceTxn 0 10 with timelineState := .ready 1 } ∧
      ({ aliceTxn 0 10 with timelineState := .ready 1 } : MempoolTransaction).pos =
        ({ aliceTxn 0 10 with txn := { (aliceTxn 0 10).txn with gasUnitPrice := 2 } } :
          MempoolTransaction).pos ∧ 0 ≤ (aliceTxn 0 10).getSequenceNumber ∧
      ∃ s' status, s.insert { aliceTxn 0 10 with txn := { (aliceTxn 0 10).txn with gasUnitPrice := 2 } }
          0 0 = some (s', status) ∧
        (status.code = .invalidUpdate ∨ status.code = .accepted) ∧
        s'.get alice 0 = some (if status.code = .invalidUpdate ∨
          ({ aliceTxn 0 10 with timelineState := .ready 1 } : MempoolTransaction).txn =
            { (aliceTxn 0 10).txn with gasUnitPrice := 2 }
          then ({ aliceTxn 0 10 with timelineState := .ready 1 } : MempoolTransaction).txn
          else { (aliceTxn 0 10).txn with gasUnitPrice := 2 }) := by
  refine ⟨_, rfl, ?_⟩
  -- the store is the one just computed; both hypotheses are checked on it
  refine (fun hr hold =>
    ⟨hr, hold, rfl, Nat.le_refl _, insert_replaces_exactly hr hold rfl (Nat.le_refl _)⟩) ?_ ?_
  · exact @Reachable.insert _ _ (aliceTxn 0 10) 0 0 _ (Reachable.new ⟨1, 1⟩) rfl
  · exact ⟨_, rfl, rfl⟩

end TransactionStore

end Dijets.Mempool
