import Dijets.Lib.SortedMap
import Dijets.Lib.Check

/-!
# Executing a block of transactions

`DijetsVM::execute_block_impl` runs the transactions of a block one after the other over a
`StateViewCache`: a `BTreeMap` of access paths in front of the block's `StateView`, into
which `push_write_set` writes the write set of each output that is not discarded (a
deletion as a `None` entry), so that each transaction reads what the ones before it left.
Once an output emits the new-epoch event, the transactions after it are not run: each gets
a `Retry` output with an empty write set.

The execution of one transaction, `execute_single_transaction`, is a parameter here: a
function of the preprocessed transaction and of the view it reads through
`StateView::get`, which is how every resolver of the cache reads it. `preload_cache` only
reads the view to warm the storage below it, so it changes nothing the model holds; the
sender that `execute_single_transaction` returns is only logged.

What the block's outputs are is then said in terms of that function alone. `overlay base wss`
is the view of `base` after the write sets `wss` applied in order: the last write of a path
decides what a read of it sees. `Layered` says of the outputs of the first transactions of
a block that each is the `Retry` output once an earlier output was a reconfiguration, and
otherwise the execution of its transaction over the overlay of the earlier write sets that
were kept.

## Main results

* `get_pushWriteSet` — the cache after a write set is the overlay of that write set.
* `BlockInv.step` — one iteration of the loop keeps the outputs layered and the cache the
  overlay of their write sets.
* `execute_block_layered` — a block either fails at the execution of one transaction, all
  before it layered, or gives one layered output per transaction.
-/

set_option autoImplicit false

namespace Dijets.Vm

open Dijets.Lib

/-- `WriteOp`. -/
inductive WriteOp where
  | deletion
  | value (blob : List UInt8)
  deriving DecidableEq, Repr

/-- `TransactionStatus`, over the VM statuses it wraps. -/
inductive TransactionStatus (D K : Type) where
  | discard (status : D)
  | keep (status : K)
  | retry
  deriving DecidableEq, Repr

/-- `TransactionStatus::is_discarded`. -/
def TransactionStatus.isDiscarded {D K : Type} : TransactionStatus D K → Bool
  | .discard _ => true
  | _ => false

/-- `ContractEvent`, as far as the executor reads it: its key. -/
structure ContractEvent (EK : Type) where
  key : EK
  deriving DecidableEq, Repr

/-- `TransactionOutput`. -/
structure TransactionOutput (A EK D K : Type) where
  writeSet : List (A × WriteOp)
  events : List (ContractEvent EK)
  gasUsed : UInt64
  status : TransactionStatus D K

/-- `StateViewCache`: the block's view, and the values written in front of it. -/
structure StateViewCache (A E : Type) where
  dataView : A → Except E (Option (List UInt8))
  dataMap : List (A × Option (List UInt8))

namespace StateViewCache

variable {A E : Type} [LinearOrder A]

/-- `StateViewCache::new`. -/
def new (dataView : A → Except E (Option (List UInt8))) : StateViewCache A E :=
  ⟨dataView, []⟩

/-- One iteration of `push_write_set`'s loop. A deletion removes the entry, then inserts
`None`. -/
def pushWriteOp (dataMap : List (A × Option (List UInt8))) (e : A × WriteOp) :
    List (A × Option (List UInt8)) :=
  match e.2 with
  | .value blob => SortedMap.insert e.1 (some blob) dataMap
  | .deletion => SortedMap.insert e.1 none (SortedMap.erase e.1 dataMap)

/-- `StateViewCache::push_write_set`. -/
def pushWriteSet (c : StateViewCache A E) (writeSet : List (A × WriteOp)) : StateViewCache A E :=
  { c with dataMap := writeSet.foldl pushWriteOp c.dataMap }

/-- `StateView::get` of the cache: its own entry if it has one, else the view's. -/
def get (c : StateViewCache A E) (accessPath : A) : Except E (Option (List UInt8)) :=
  match SortedMap.get? accessPath c.dataMap with
  | some optData => .ok optData
  | none => c.dataView accessPath

end StateViewCache

section Executor

variable {T P A EK D K S E : Type} [LinearOrder A] [DecidableEq EK]

/-- `is_reconfiguration`: the output emits an event under the new-epoch event key. -/
def isReconfiguration (newEpochEventKey : EK) (vmOutput : TransactionOutput A EK D K) : Bool :=
  vmOutput.events.any fun event => decide (event.key = newEpochEventKey)

/-- The output of a transaction after a reconfiguration:
`TransactionOutput::new(WriteSet::default(), vec![], 0, TransactionStatus::Retry)`. -/
def retryOutput : TransactionOutput A EK D K := ⟨[], [], 0, .retry⟩

variable (preprocessTransaction : T → P)
  (executeSingleTransaction :
    P → (A → Except E (Option (List UInt8))) → Except S (S × TransactionOutput A EK D K))
  (newEpochEventKey : EK) (unknownStatus : S)

/-- One iteration of `execute_block_impl`'s loop, over the outputs so far, `should_restart`
and the cache; `unknownStatus` is `VMStatus::Error(StatusCode::UNKNOWN_STATUS)`. -/
def executeBlockStep (st : List (S × TransactionOutput A EK D K) × Bool × StateViewCache A E)
    (txn : P) : Except S (List (S × TransactionOutput A EK D K) × Bool × StateViewCache A E) :=
  let (result, shouldRestart, dataCache) := st
  if shouldRestart then
    pure (result ++ [(unknownStatus, retryOutput)], shouldRestart, dataCache)
  else do
    let (vmStatus, output) ← executeSingleTransaction txn dataCache.get
    let dataCache :=
      if !output.status.isDiscarded then dataCache.pushWriteSet output.writeSet else dataCache
    let shouldRestart := if isReconfiguration newEpochEventKey output then true else shouldRestart
    pure (result ++ [(vmStatus, output)], shouldRestart, dataCache)

/-- `DijetsVM::execute_block_impl`, with the cache it leaves. -/
def executeBlockImpl (transactions : List T) (dataCache : StateViewCache A E) :
    Except S (List (S × TransactionOutput A EK D K) × StateViewCache A E) := do
  let signatureVerifiedBlock := transactions.map preprocessTransaction
  let (result, _, dataCache) ← signatureVerifiedBlock.foldlM
    (executeBlockStep executeSingleTransaction newEpochEventKey unknownStatus) ([], false, dataCache)
  pure (result, dataCache)

/-- `DijetsVM::execute_block_and_keep_vm_status`. -/
def executeBlockAndKeepVmStatus (transactions : List T) (stateView : A → Except E (Option (List UInt8))) :
    Except S (List (S × TransactionOutput A EK D K)) :=
  (executeBlockImpl preprocessTransaction executeSingleTransaction newEpochEventKey unknownStatus
    transactions (StateViewCache.new stateView)).map Prod.fst

end Executor

/-! ## The layered view -/

section Overlay

variable {A E : Type} [LinearOrder A]

/-- The last operation on a path in a write set. -/
def lastWrite (ws : List (A × WriteOp)) (ap : A) : Option WriteOp :=
  (ws.reverse.find? fun e => decide (e.1 = ap)).map Prod.snd

/-- What a read of a path sees after an operation on it. -/
def WriteOp.read : WriteOp → Option (List UInt8)
  | .deletion => none
  | .value blob => some blob

/-- The view of `base` after the write sets `wss`, applied in order. -/
def overlay (base : A → Except E (Option (List UInt8))) (wss : List (List (A × WriteOp)))
    (ap : A) : Except E (Option (List UInt8)) :=
  match lastWrite wss.flatten ap with
  | some op => .ok op.read
  | none => base ap

@[simp] theorem lastWrite_nil {ap : A} : lastWrite [] ap = none := rfl

/-- In a write set made of two, the second's operation on a path comes last. -/
theorem lastWrite_append {ws₁ ws₂ : List (A × WriteOp)} {ap : A} :
    lastWrite (ws₁ ++ ws₂) ap = (lastWrite ws₂ ap).or (lastWrite ws₁ ap) := by
  simp only [lastWrite, List.reverse_append, List.find?_append]
  cases ws₂.reverse.find? fun e => decide (e.1 = ap) <;> rfl

theorem lastWrite_singleton {e : A × WriteOp} {ap : A} :
    lastWrite [e] ap = if e.1 = ap then some e.2 else none := by
  by_cases h : e.1 = ap <;> simp [lastWrite, h]

theorem overlay_nil {base : A → Except E (Option (List UInt8))} {ap : A} :
    overlay base [] ap = base ap := rfl

/-- A further write set decides the paths it writes, and leaves the others as they were. -/
theorem overlay_append_singleton {base : A → Except E (Option (List UInt8))}
    {wss : List (List (A × WriteOp))} {ws : List (A × WriteOp)} {ap : A} :
    overlay base (wss ++ [ws]) ap =
      match lastWrite ws ap with
      | some op => .ok op.read
      | none => overlay base wss ap := by
  rw [overlay, List.flatten_append, List.flatten_singleton, lastWrite_append]
  cases lastWrite ws ap <;> rfl

/-- The cache's map after one operation: the path reads what it wrote, the others as before. -/
theorem get?_pushWriteOp {m : List (A × Option (List UInt8))} {e : A × WriteOp} {ap : A} :
    SortedMap.get? ap (StateViewCache.pushWriteOp m e) =
      if e.1 = ap then some e.2.read else SortedMap.get? ap m := by
  obtain ⟨ap', op⟩ := e
  by_cases h : ap' = ap
  · subst h
    cases op <;> simp [StateViewCache.pushWriteOp, SortedMap.get?_insert_self, WriteOp.read]
  · have hne : ap ≠ ap' := Ne.symm h
    rw [if_neg h]
    cases op with
    | deletion =>
      simp only [StateViewCache.pushWriteOp]
      rw [SortedMap.get?_insert_ne hne, SortedMap.get?_erase_ne hne]
    | value blob =>
      simp only [StateViewCache.pushWriteOp]
      rw [SortedMap.get?_insert_ne hne]

/-- The cache's map after a write set: the last operation on a path decides it. -/
theorem get?_foldl_pushWriteOp (ws : List (A × WriteOp)) (ap : A) :
    ∀ m : List (A × Option (List UInt8)),
      SortedMap.get? ap (ws.foldl StateViewCache.pushWriteOp m) =
        ((lastWrite ws ap).map WriteOp.read).or (SortedMap.get? ap m) := by
  induction ws with
  | nil => intro m; rfl
  | cons e ws ih =>
    intro m
    rw [List.foldl_cons, ih, get?_pushWriteOp, ← List.singleton_append, lastWrite_append,
      lastWrite_singleton]
    -- a later operation on the path hides the head's
    cases lastWrite ws ap with
    | some op => rfl
    | none => by_cases h : e.1 = ap <;> simp [h]

/-- **The cache refines the overlay**: after a write set, a read of the cache is what the
write set's overlay of the cache before gives. -/
theorem get_pushWriteSet (c : StateViewCache A E) (ws : List (A × WriteOp)) (ap : A) :
    (c.pushWriteSet ws).get ap =
      match lastWrite ws ap with
      | some op => .ok op.read
      | none => c.get ap := by
  simp only [StateViewCache.get, StateViewCache.pushWriteSet, get?_foldl_pushWriteOp]
  cases lastWrite ws ap <;> rfl

end Overlay

/-! ## The layered outputs -/

section Layered

variable {T P A EK D K S E : Type} [LinearOrder A] [DecidableEq EK]
variable (executeSingleTransaction :
    P → (A → Except E (Option (List UInt8))) → Except S (S × TransactionOutput A EK D K))
  (newEpochEventKey : EK) (unknownStatus : S) (base : A → Except E (Option (List UInt8)))

/-- The write sets of the outputs that are not discarded, in order. -/
def keptWriteSets (rs : List (S × TransactionOutput A EK D K)) : List (List (A × WriteOp)) :=
  (rs.filter fun r => !r.2.status.isDiscarded).map fun r => r.2.writeSet

/-- Output `r` of transaction `txn`, after the outputs `earlier`: the `Retry` output once an
earlier one was a reconfiguration, else the execution of `txn` over the overlay of the
earlier write sets that were kept. -/
def LayeredAt (earlier : List (S × TransactionOutput A EK D K)) (txn : P)
    (r : S × TransactionOutput A EK D K) : Prop :=
  if earlier.any (fun r => isReconfiguration newEpochEventKey r.2) = true then
    r = (unknownStatus, retryOutput)
  else executeSingleTransaction txn (overlay base (keptWriteSets earlier)) = .ok r

/-- Each output of the first transactions is layered over the outputs before it. -/
def Layered (txns : List P) (rs : List (S × TransactionOutput A EK D K)) : Prop :=
  ∀ i r txn, rs[i]? = some r → txns[i]? = some txn →
    LayeredAt executeSingleTransaction newEpochEventKey unknownStatus base (rs.take i) txn r

/-- What the loop of `execute_block_impl` keeps after the transactions `pre`: one layered
output each, `should_restart` set exactly after a reconfiguration, and the cache the overlay
of the kept write sets. -/
structure BlockInv (pre : List P)
    (st : List (S × TransactionOutput A EK D K) × Bool × StateViewCache A E) : Prop where
  length : st.1.length = pre.length
  layered : Layered executeSingleTransaction newEpochEventKey unknownStatus base pre st.1
  restart : st.2.1 = st.1.any fun r => isReconfiguration newEpochEventKey r.2
  cache : ∀ ap, st.2.2.get ap = overlay base (keptWriteSets st.1) ap

omit [LinearOrder A] [DecidableEq EK] in
theorem keptWriteSets_append_singleton {rs : List (S × TransactionOutput A EK D K)}
    {r : S × TransactionOutput A EK D K} :
    keptWriteSets (rs ++ [r]) =
      keptWriteSets rs ++ if r.2.status.isDiscarded then [] else [r.2.writeSet] := by
  cases h : r.2.status.isDiscarded <;> simp [keptWriteSets, List.filter_append, h]

variable {executeSingleTransaction newEpochEventKey unknownStatus base}

/-- A further output layered over all the outputs before it extends the layered outputs. -/
theorem Layered.append {pre : List P} {rs : List (S × TransactionOutput A EK D K)}
    (h : Layered executeSingleTransaction newEpochEventKey unknownStatus base pre rs)
    (hlen : rs.length = pre.length) {txn : P} {r : S × TransactionOutput A EK D K}
    (hat : LayeredAt executeSingleTransaction newEpochEventKey unknownStatus base rs txn r) :
    Layered executeSingleTransaction newEpochEventKey unknownStatus base (pre ++ [txn])
      (rs ++ [r]) := by
  intro i r' txn' hr ht
  rcases Nat.lt_or_ge i rs.length with hlt | hge
  · -- an earlier output sees the same outputs before it
    rw [List.getElem?_append_left hlt] at hr
    rw [List.getElem?_append_left (hlen ▸ hlt)] at ht
    rw [List.take_append_of_le_length (Nat.le_of_lt hlt)]
    exact h i r' txn' hr ht
  · -- the new output is the last one
    obtain rfl : i = rs.length := by
      have := (List.getElem?_eq_some_iff.mp hr).1
      simp only [List.length_append, List.length_singleton] at this
      omega
    rw [List.getElem?_append_right (Nat.le_refl _), Nat.sub_self] at hr
    rw [hlen, List.getElem?_append_right (Nat.le_refl _), Nat.sub_self] at ht
    cases hr
    cases ht
    rw [List.take_left]
    exact hat

theorem blockInv_nil (dataCache : StateViewCache A E) (hcache : ∀ ap, dataCache.get ap = base ap) :
    BlockInv executeSingleTransaction newEpochEventKey unknownStatus base [] ([], false, dataCache) where
  length := rfl
  layered := fun _ _ _ hr => by cases hr
  restart := rfl
  cache := hcache

/-- **One iteration of the loop.** After a reconfiguration a transaction gets the `Retry`
output and the cache is left as it is; before it, the transaction is executed over the
cache, which is the overlay of the kept write sets, and its write set is pushed unless its
output is discarded. -/
theorem BlockInv.step {pre : List P} {st st' : List (S × TransactionOutput A EK D K) × Bool ×
      StateViewCache A E} {txn : P}
    (hinv : BlockInv executeSingleTransaction newEpochEventKey unknownStatus base pre st)
    (hstep : executeBlockStep executeSingleTransaction newEpochEventKey unknownStatus st txn =
      .ok st') :
    BlockInv executeSingleTransaction newEpochEventKey unknownStatus base (pre ++ [txn]) st' := by
  obtain ⟨rs, restart, c⟩ := st
  obtain ⟨hlen, hlayered, hrestart, hcache⟩ := hinv
  simp only at hlen hlayered hrestart hcache
  cases restart with
  | true =>
    -- the transaction is not executed
    have hst' : st' = (rs ++ [(unknownStatus, retryOutput)], true, c) := by
      simp only [executeBlockStep, if_true, Check.pure_eq_ok] at hstep
      exact hstep.symm
    subst hst'
    refine ⟨by simp [hlen], hlayered.append hlen ?_, ?_, fun ap => ?_⟩
    · rw [LayeredAt, if_pos hrestart.symm]
    · simp [← hrestart]
    · -- the `Retry` output is kept, with an empty write set
      rw [hcache, keptWriteSets_append_singleton]
      simp only [retryOutput, TransactionStatus.isDiscarded, Bool.false_eq_true, if_false]
      rw [overlay_append_singleton]
      rfl
  | false =>
    simp only [executeBlockStep, Bool.false_eq_true, if_false, Check.bind_eq_ok] at hstep
    obtain ⟨⟨vmStatus, output⟩, hexec, hst'⟩ := hstep
    rw [Check.pure_eq_ok] at hst'
    subst hst'
    have hview : c.get = overlay base (keptWriteSets rs) := funext hcache
    refine ⟨by simp [hlen], hlayered.append hlen ?_, ?_, fun ap => ?_⟩
    · rw [LayeredAt, if_neg (by rw [← hrestart]; simp), ← hview]
      exact hexec
    · simp only [List.any_append, ← hrestart, Bool.false_or, List.any_cons, List.any_nil,
        Bool.or_false]
      cases isReconfiguration newEpochEventKey output <;> rfl
    · -- the write set is pushed exactly when the output is kept
      rw [keptWriteSets_append_singleton]
      cases hd : output.status.isDiscarded with
      | true => simp [hcache]
      | false =>
        simp only [Bool.not_false, if_true, Bool.false_eq_true, if_false]
        rw [get_pushWriteSet, overlay_append_singleton, hcache]

/-- **Block execution is layered, and stops at a reconfiguration.** From a cache in front of
a view `base`, `execute_block_impl` either fails with the error of the execution of one
transaction, over the overlay of the kept write sets of the outputs before it, which are
layered and none of which is a reconfiguration; or it gives one output per transaction, in
order, each layered over those before it, and leaves the cache the overlay of the kept write
sets of all of them. -/
theorem execute_block_layered (preprocessTransaction : T → P)
    (executeSingleTransaction :
      P → (A → Except E (Option (List UInt8))) → Except S (S × TransactionOutput A EK D K))
    (newEpochEventKey : EK) (unknownStatus : S) (base : A → Except E (Option (List UInt8)))
    (transactions : List T) :
    (∃ result dataCache,
      executeBlockImpl preprocessTransaction executeSingleTransaction newEpochEventKey unknownStatus
        transactions (StateViewCache.new base) = .ok (result, dataCache) ∧
      result.length = transactions.length ∧
      Layered executeSingleTransaction newEpochEventKey unknownStatus base
        (transactions.map preprocessTransaction) result ∧
      ∀ ap, dataCache.get ap = overlay base (keptWriteSets result) ap) ∨
    (∃ e earlier before txn after,
      executeBlockImpl preprocessTransaction executeSingleTransaction newEpochEventKey unknownStatus
        transactions (StateViewCache.new base) = .error e ∧
      transactions.map preprocessTransaction = before ++ txn :: after ∧
      earlier.length = before.length ∧
      Layered executeSingleTransaction newEpochEventKey unknownStatus base before earlier ∧
      earlier.any (fun r => isReconfiguration newEpochEventKey r.2) = false ∧
      executeSingleTransaction txn (overlay base (keptWriteSets earlier)) = .error e) := by
  have hinit : BlockInv executeSingleTransaction newEpochEventKey unknownStatus base []
      ([], false, StateViewCache.new base) :=
    blockInv_nil _ fun _ => rfl
  have hstep : ∀ pre x st st', BlockInv executeSingleTransaction newEpochEventKey unknownStatus base
      pre st → executeBlockStep executeSingleTransaction newEpochEventKey unknownStatus st x =
        .ok st' → BlockInv executeSingleTransaction newEpochEventKey unknownStatus base
          (pre ++ [x]) st' :=
    fun _ _ _ _ hinv h => hinv.step h
  cases hrun : (transactions.map preprocessTransaction).foldlM
      (executeBlockStep executeSingleTransaction newEpochEventKey unknownStatus)
      ([], false, StateViewCache.new base) with
  | ok st =>
    left
    have hinv := Check.foldlM_prefix_ok _ hstep hinit hrun
    rw [List.nil_append] at hinv
    refine ⟨st.1, st.2.2, ?_, by simpa using hinv.length, hinv.layered, hinv.cache⟩
    simp only [executeBlockImpl, hrun]
    rfl
  | error e =>
    right
    obtain ⟨before, txn, after, st, hsplit, hinv, herr⟩ :=
      Check.foldlM_prefix_error _ hstep hinit hrun
    rw [List.nil_append] at hinv
    obtain ⟨rs, restart, c⟩ := st
    -- the failing step executed its transaction, so no reconfiguration came before it
    cases restart with
    | true =>
      simp only [executeBlockStep, if_true] at herr
      cases herr
    | false =>
      simp only [executeBlockStep, Bool.false_eq_true, if_false] at herr
      have hexec : executeSingleTransaction txn c.get = .error e := by
        cases h : executeSingleTransaction txn c.get with
        | error e' => rw [h] at herr; cases herr; rfl
        | ok r => rw [h] at herr; cases herr
      have hview : c.get = overlay base (keptWriteSets rs) := funext hinv.cache
      refine ⟨e, rs, before, txn, after, ?_, hsplit, hinv.length, hinv.layered,
        hinv.restart.symm, hview ▸ hexec⟩
      simp only [executeBlockImpl, hrun]
      rfl

end Layered

end Dijets.Vm
