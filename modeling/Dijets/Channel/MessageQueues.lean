import Dijets.Lib.HashMap
import Dijets.Lib.Run
import Dijets.Lib.RoundRobin

/-!
# The per-key message queues of a channel

`PerKeyQueue` of `message_queues.rs` keeps a bounded queue of messages for each key and a
round-robin queue of the keys that have messages. `push` appends to the key's queue; when the
queue is full, the queue style picks the message dropped: the new one for FIFO, the oldest for
LIFO and KLAST. `pop` serves the key at the front of the round-robin queue, taking its oldest
message (FIFO, KLAST) or its newest (LIFO), and puts the key back at the end if it has messages
left; every `POPS_PER_GC` successful pops it drops the entries of empty queues from the map.
`clear` empties both.

A `HashMap` is an association list (`Lib.HashMap`) and a `VecDeque` a list, front first. The
optional metric counters are left out: they are written and never read.

The results are about every run of the three calls from `new`:

* `inv_run` — the round-robin queue holds each key with messages exactly once and no other key,
  no key's queue is longer than `max_queue_size`, and so `pop` answers `None` exactly when no
  message is queued.
* conservation — every message pushed is still queued, or was returned by `push` as dropped, by
  one `pop`, or discarded by `clear`, and only once.
* fairness — between two pops that serve a key `k`, the keys served are keys that stood ahead of
  `k`, each once and in their order (`Lib.RoundRobin`).
-/

set_option autoImplicit false

namespace Dijets.Channel

open Dijets.Lib
open scoped List

/-- `QueueStyle`: which message a full queue drops and which one `pop` takes. -/
inductive QueueStyle where
  | lifo
  | fifo
  | klast
deriving DecidableEq, Repr

/-- `POPS_PER_GC`: empty queues are removed every this many successful pops. -/
def POPS_PER_GC : ℕ := 50

/-- `PerKeyQueue`, without its metric counters. `num_popped_since_gc` is a `u32` that never
reaches `POPS_PER_GC` (`Inv.gc_lt`), so it is a `ℕ`. -/
structure PerKeyQueue (K T : Type) where
  queueStyle : QueueStyle
  perKeyQueue : List (K × List T)
  roundRobinQueue : List K
  maxQueueSize : ℕ+
  numPoppedSinceGc : ℕ

/-- The calls of a `PerKeyQueue`. -/
inductive Op (K T : Type) where
  | push (key : K) (message : T)
  | pop
  | clear

/-- What a call answers: `push` the message it dropped and `pop` the message it returned, if
any. `clear` returns nothing; the messages it discards are recorded in its answer, so that a
run accounts for every message. -/
inductive Answer (T : Type) where
  | pushed (dropped : Option T)
  | popped (message : Option T)
  | cleared (discarded : List T)

namespace PerKeyQueue

variable {K T : Type}

/-- `PerKeyQueue::new`. -/
def new (queueStyle : QueueStyle) (maxQueueSizePerKey : ℕ+) : PerKeyQueue K T where
  queueStyle := queueStyle
  perKeyQueue := []
  roundRobinQueue := []
  maxQueueSize := maxQueueSizePerKey
  numPoppedSinceGc := 0

/-- The `match self.queue_style` of `pop_from_key_queue`: the message taken from a key's queue
and what is left of it. -/
def popByStyle (queueStyle : QueueStyle) (q : List T) : Option T × List T :=
  match queueStyle with
  | .fifo | .klast => (q.head?, q.tail)
  | .lifo => (q.getLast?, q.dropLast)

/-- The second half of `push`: the message goes onto the key's queue, and when the queue is
full the style picks the message dropped. The queue and the dropped message. -/
def pushToKeyQueue (queueStyle : QueueStyle) (maxQueueSize : ℕ+) (q : List T) (message : T) :
    List T × Option T :=
  if (maxQueueSize : ℕ) ≤ q.length then
    match queueStyle with
    -- drop the newest message for FIFO
    | .fifo => (q, some message)
    -- drop the oldest message for LIFO and KLAST
    | .lifo | .klast => (q.tail ++ [message], q.head?)
  else (q ++ [message], none)

/-- `remove_empty_queues`. -/
def removeEmptyQueues (s : PerKeyQueue K T) : PerKeyQueue K T :=
  { s with perKeyQueue := s.perKeyQueue.filter fun e => !e.2.isEmpty }

/-- The bookkeeping of a successful `pop`: it is counted, and every `POPS_PER_GC` pops the empty
queues are removed. -/
def countPopped (s : PerKeyQueue K T) : PerKeyQueue K T :=
  if POPS_PER_GC ≤ s.numPoppedSinceGc + 1 then
    { s with numPoppedSinceGc := 0 }.removeEmptyQueues
  else { s with numPoppedSinceGc := s.numPoppedSinceGc + 1 }

/-- `clear`. -/
def clear (s : PerKeyQueue K T) : PerKeyQueue K T :=
  { s with perKeyQueue := [], roundRobinQueue := [] }

/-- The messages queued for a key, in queue order; a key without a queue has none. -/
def queueOf [DecidableEq K] (s : PerKeyQueue K T) (k : K) : List T :=
  (HashMap.get? k s.perKeyQueue).getD []

/-- Every message queued, key by key. -/
def queued (s : PerKeyQueue K T) : List T := s.perKeyQueue.flatMap Prod.snd

variable [DecidableEq K]

/-- `pop_from_key_queue`: the message taken from the queue of `key`, and whether the queue is
empty after it. -/
def popFromKeyQueue (s : PerKeyQueue K T) (key : K) : PerKeyQueue K T × Option T × Bool :=
  match HashMap.get? key s.perKeyQueue with
  | some q =>
    let r := popByStyle s.queueStyle q
    ({ s with perKeyQueue := HashMap.insert key r.2 s.perKeyQueue }, r.1, r.2.isEmpty)
  | none => (s, none, true)

/-- `push`: the state after it and the message it dropped. -/
def push (s : PerKeyQueue K T) (key : K) (message : T) : PerKeyQueue K T × Option T :=
  -- `entry(key).or_insert_with(..)`: a key without a queue starts with an empty one
  let q := (HashMap.get? key s.perKeyQueue).getD []
  let r := pushToKeyQueue s.queueStyle s.maxQueueSize q message
  ({ s with
      perKeyQueue := HashMap.insert key r.1 s.perKeyQueue
      roundRobinQueue := if q.isEmpty then s.roundRobinQueue ++ [key] else s.roundRobinQueue },
    r.2)

/-- `pop`: the state after it and the message it returned. -/
def pop (s : PerKeyQueue K T) : PerKeyQueue K T × Option T :=
  match s.roundRobinQueue with
  | [] => (s, none)
  | key :: rest =>
    let r := popFromKeyQueue { s with roundRobinQueue := rest } key
    let s₁ := if !r.2.2 then { r.1 with roundRobinQueue := r.1.roundRobinQueue ++ [key] } else r.1
    (if r.2.1.isSome then s₁.countPopped else s₁, r.2.1)

/-- One call on the queue. -/
def step (s : PerKeyQueue K T) : Op K T → PerKeyQueue K T × Answer T
  | .push key message => ((s.push key message).1, .pushed (s.push key message).2)
  | .pop => (s.pop.1, .popped s.pop.2)
  | .clear => (s.clear, .cleared s.queued)

end PerKeyQueue

/-- The message a call hands to the queue. -/
def Op.pushed {K T : Type} : Op K T → List T
  | .push _ message => [message]
  | _ => []

/-- The message a call hands to the queue, with its key. -/
def Op.keyed {K T : Type} : Op K T → List (K × T)
  | .push key message => [(key, message)]
  | _ => []

/-- The messages a call gives back or discards. -/
def Answer.released {T : Type} : Answer T → List T
  | .pushed dropped => dropped.toList
  | .popped message => message.toList
  | .cleared discarded => discarded

namespace PerKeyQueue

variable {K T : Type}

/-- The key a call serves: `pop` takes a message of the key at the front of the round-robin
queue. -/
def served (s : PerKeyQueue K T) : Op K T → Option K
  | .pop => s.roundRobinQueue.head?
  | _ => none

/-- The keys the calls `ops` serve from `s`, in order. -/
def servedKeys [DecidableEq K] : PerKeyQueue K T → List (Op K T) → List K
  | _, [] => []
  | s, op :: ops => (s.served op).toList ++ servedKeys (s.step op).1 ops

/-- The message a call returned, with the key it served. -/
def poppedBy [DecidableEq K] (s : PerKeyQueue K T) : Op K T → List (K × T)
  | .pop =>
    match s.roundRobinQueue.head?, s.pop.2 with
    | some k, some message => [(k, message)]
    | _, _ => []
  | _ => []

/-- The messages the calls `ops` return from `s`, in order, each with the key it served. -/
def popped [DecidableEq K] : PerKeyQueue K T → List (Op K T) → List (K × T)
  | _, [] => []
  | s, op :: ops => s.poppedBy op ++ popped (s.step op).1 ops

/-- The messages of key `k` among keyed messages, in order. -/
def forKey [DecidableEq K] (k : K) (l : List (K × T)) : List T :=
  l.filterMap fun e => if e.1 = k then some e.2 else none

/-! ## One key's queue -/

section KeyQueue

variable {q : List T}

/-- Taking a message from a queue splits it into the message and what is left. -/
theorem popByStyle_perm (st : QueueStyle) (q : List T) :
    ((popByStyle st q).1.toList ++ (popByStyle st q).2).Perm q := by
  cases st with
  | lifo =>
    rcases List.eq_nil_or_concat q with rfl | ⟨l, a, rfl⟩
    · exact .refl _
    · simpa [popByStyle] using (List.perm_append_singleton a l).symm
  | fifo => cases q <;> exact .refl _
  | klast => cases q <;> exact .refl _

theorem length_popByStyle (st : QueueStyle) (q : List T) :
    (popByStyle st q).2.length = q.length - 1 := by
  cases st <;> simp [popByStyle]

theorem popByStyle_isSome (st : QueueStyle) (hq : q ≠ []) : (popByStyle st q).1.isSome := by
  cases st <;> simp [popByStyle, hq]

variable {st : QueueStyle} {max : ℕ+} {message : T}

/-- Pushing onto a queue gives back the queue and the message: what is kept and what is
dropped. -/
theorem pushToKeyQueue_perm (st : QueueStyle) (max : ℕ+) (q : List T) (message : T) :
    ((pushToKeyQueue st max q message).1 ++ (pushToKeyQueue st max q message).2.toList).Perm
      (q ++ [message]) := by
  unfold pushToKeyQueue
  split_ifs
  · cases st with
    | fifo => exact .refl _
    | lifo | klast =>
      cases q with
      | nil => exact .refl _
      | cons a l => simpa using List.perm_append_singleton a (l ++ [message])
  · simp

/-- A queue within the bound stays within it. -/
theorem length_pushToKeyQueue_le (hq : q.length ≤ max) :
    (pushToKeyQueue st max q message).1.length ≤ max := by
  have hmax := max.pos
  unfold pushToKeyQueue
  split_ifs with hfull
  · cases st with
    | fifo => exact hq
    | lifo | klast =>
      simp only [List.length_append, List.length_tail, List.length_singleton]
      omega
  · simp only [List.length_append, List.length_singleton]
    omega

/-- What a push keeps of a queue and the new message stands in their order. -/
theorem pushToKeyQueue_sublist (st : QueueStyle) (max : ℕ+) (q : List T) (message : T) :
    (pushToKeyQueue st max q message).1 <+ q ++ [message] := by
  unfold pushToKeyQueue
  split_ifs
  · cases st with
    | fifo => exact List.sublist_append_left q _
    | lifo | klast => exact (List.tail_sublist q).append_right _
  · exact .refl _

/-- FIFO and KLAST take from the front. -/
theorem popByStyle_of_ne_lifo (hst : st ≠ .lifo) (q : List T) : popByStyle st q = (q.head?, q.tail) := by
  cases st with
  | lifo => exact absurd rfl hst
  | fifo | klast => rfl

theorem pushToKeyQueue_ne_nil : (pushToKeyQueue st max q message).1 ≠ [] := by
  unfold pushToKeyQueue
  split_ifs with hfull
  · cases st with
    | fifo =>
      -- a full queue is not empty, since the bound is positive
      intro hq
      change q = [] at hq
      have hpos := max.pos
      rw [hq, List.length_nil] at hfull
      omega
    | lifo | klast => simp
  · simp

end KeyQueue

/-! ## Maps of queues -/

section Maps

variable [DecidableEq K] {m : List (K × List T)} {key k : K} {q : List T}

theorem getD_get?_insert :
    (HashMap.get? k (HashMap.insert key q m)).getD [] = if k = key then q else (HashMap.get? k m).getD [] := by
  rw [HashMap.get?_insert]
  split_ifs <;> rfl

/-- Removing the entries of empty queues changes no key's queue, when keys stand once. -/
theorem getD_get?_filter_nonempty (hm : HashMap.KeysNodup m) (k : K) :
    (HashMap.get? k (m.filter fun e => !e.2.isEmpty)).getD [] = (HashMap.get? k m).getD [] := by
  induction m with
  | nil => rfl
  | cons e m ih =>
    rw [HashMap.KeysNodup, HashMap.keys_cons, List.nodup_cons] at hm
    rw [List.filter_cons]
    split_ifs with he
    · -- the entry stays
      rw [HashMap.get?_cons, HashMap.get?_cons]
      split_ifs
      · rfl
      · exact ih hm.2
    · -- the entry goes, and its queue was empty
      have he' : e.2 = [] := by simpa using he
      rw [HashMap.get?_cons]
      split_ifs with hk
      · -- the tail has no entry of `k`
        subst hk
        have hnone : HashMap.get? e.1 (m.filter fun e => !e.2.isEmpty) = none :=
          HashMap.get?_eq_none_iff.mpr fun h => hm.1 ((List.filter_sublist.map Prod.fst).subset h)
        rw [hnone, he']
        rfl
      · exact ih hm.2

/-- Every message of a map of queues, with the queue of `key` replaced: the new queue and the
others. -/
theorem flatMap_insert :
    (HashMap.insert key q m).flatMap Prod.snd = q ++ (m.filter fun e => e.1 ≠ key).flatMap Prod.snd := by
  rw [HashMap.insert, List.flatMap_cons]

end Maps

/-- Moving the last of three lists before the second is a permutation. -/
theorem append_perm_append_swap {α : Type*} (a b c : List α) : (a ++ b ++ c).Perm (a ++ c ++ b) := by
  rw [List.append_assoc, List.append_assoc]
  exact List.perm_append_comm.append_left a

/-! ## The calls, one at a time -/

section Counting

variable {s : PerKeyQueue K T}

/-- Removing the entries of empty queues removes no message. -/
theorem flatMap_filter_nonempty (m : List (K × List T)) :
    (m.filter fun e => !e.2.isEmpty).flatMap Prod.snd = m.flatMap Prod.snd := by
  induction m with
  | nil => rfl
  | cons e m ih =>
    rw [List.filter_cons, List.flatMap_cons]
    split_ifs with he
    · rw [List.flatMap_cons, ih]
    · have he' : e.2 = [] := by simpa using he
      rw [he', ih, List.nil_append]

@[simp] theorem countPopped_queueStyle : s.countPopped.queueStyle = s.queueStyle := by
  unfold countPopped
  split_ifs <;> rfl

@[simp] theorem countPopped_maxQueueSize : s.countPopped.maxQueueSize = s.maxQueueSize := by
  unfold countPopped
  split_ifs <;> rfl

@[simp] theorem countPopped_roundRobinQueue : s.countPopped.roundRobinQueue = s.roundRobinQueue := by
  unfold countPopped
  split_ifs <;> rfl

/-- The count of pops since the last collection stays below `POPS_PER_GC`: reaching it collects
and starts again. -/
theorem countPopped_numPoppedSinceGc_lt : s.countPopped.numPoppedSinceGc < POPS_PER_GC := by
  unfold countPopped
  split_ifs with hgc
  · show 0 < POPS_PER_GC
    decide
  · show s.numPoppedSinceGc + 1 < POPS_PER_GC
    omega

theorem countPopped_queued : s.countPopped.queued = s.queued := by
  unfold countPopped
  split_ifs
  · exact flatMap_filter_nonempty s.perKeyQueue
  · rfl

theorem keysNodup_countPopped (hm : HashMap.KeysNodup s.perKeyQueue) :
    HashMap.KeysNodup s.countPopped.perKeyQueue := by
  unfold countPopped
  split_ifs
  · exact hm.sublist (List.filter_sublist.map Prod.fst)
  · exact hm

end Counting

section Calls

variable [DecidableEq K] {s : PerKeyQueue K T} {key k : K} {message : T} {rest : List K}
  {q : List T}

@[simp] theorem push_queueStyle : (s.push key message).1.queueStyle = s.queueStyle := rfl

@[simp] theorem push_maxQueueSize : (s.push key message).1.maxQueueSize = s.maxQueueSize := rfl

@[simp] theorem push_numPoppedSinceGc :
    (s.push key message).1.numPoppedSinceGc = s.numPoppedSinceGc := rfl

theorem push_perKeyQueue : (s.push key message).1.perKeyQueue =
    HashMap.insert key (pushToKeyQueue s.queueStyle s.maxQueueSize (s.queueOf key) message).1
      s.perKeyQueue := rfl

theorem push_dropped :
    (s.push key message).2 = (pushToKeyQueue s.queueStyle s.maxQueueSize (s.queueOf key) message).2 :=
  rfl

/-- `push` adds the key to the round-robin queue when its queue was empty. -/
theorem push_roundRobinQueue : (s.push key message).1.roundRobinQueue =
    if (s.queueOf key).isEmpty then s.roundRobinQueue ++ [key] else s.roundRobinQueue := rfl

theorem queueOf_push : (s.push key message).1.queueOf k =
    if k = key then (pushToKeyQueue s.queueStyle s.maxQueueSize (s.queueOf key) message).1
    else s.queueOf k := by
  rw [queueOf, push_perKeyQueue, getD_get?_insert]
  rfl

/-- The state `pop` reaches before its bookkeeping when it took a message from the queue of
`key`, the front of the round-robin queue `key :: rest`, and left `q` of it: `key` goes back to
the end when `q` is not empty. -/
def requeue (s : PerKeyQueue K T) (key : K) (rest : List K) (q : List T) : PerKeyQueue K T :=
  { s with
    perKeyQueue := HashMap.insert key q s.perKeyQueue
    roundRobinQueue := if q.isEmpty then rest else rest ++ [key] }

@[simp] theorem requeue_queueStyle : (s.requeue key rest q).queueStyle = s.queueStyle := rfl

@[simp] theorem requeue_maxQueueSize : (s.requeue key rest q).maxQueueSize = s.maxQueueSize := rfl

@[simp] theorem requeue_numPoppedSinceGc :
    (s.requeue key rest q).numPoppedSinceGc = s.numPoppedSinceGc := rfl

theorem requeue_roundRobinQueue :
    (s.requeue key rest q).roundRobinQueue = if q.isEmpty then rest else rest ++ [key] := rfl

theorem queueOf_requeue : (s.requeue key rest q).queueOf k = if k = key then q else s.queueOf k :=
  getD_get?_insert

theorem queued_requeue :
    (s.requeue key rest q).queued = q ++ (s.perKeyQueue.filter fun e => e.1 ≠ key).flatMap Prod.snd :=
  flatMap_insert

theorem queueOf_countPopped (hm : HashMap.KeysNodup s.perKeyQueue) (k : K) :
    s.countPopped.queueOf k = s.queueOf k := by
  unfold countPopped
  split_ifs
  · exact getD_get?_filter_nonempty hm k
  · rfl

theorem pop_of_nil (hrr : s.roundRobinQueue = []) : s.pop = (s, none) := by
  simp [pop, hrr]

/-- `pop` when the front key has no entry in the map: it leaves the round-robin queue. -/
theorem pop_of_cons_none (hrr : s.roundRobinQueue = key :: rest)
    (hq : HashMap.get? key s.perKeyQueue = none) : s.pop = ({ s with roundRobinQueue := rest }, none) := by
  simp [pop, hrr, popFromKeyQueue, hq]

/-- `pop` when the front key has a queue: it takes a message by the queue style, puts the key
back if its queue is not empty, and counts the pop if it returned a message. -/
theorem pop_of_cons (hrr : s.roundRobinQueue = key :: rest)
    (hq : HashMap.get? key s.perKeyQueue = some q) :
    s.pop = (if (popByStyle s.queueStyle q).1.isSome
      then (s.requeue key rest (popByStyle s.queueStyle q).2).countPopped
      else s.requeue key rest (popByStyle s.queueStyle q).2, (popByStyle s.queueStyle q).1) := by
  simp only [pop, hrr, popFromKeyQueue, hq, requeue]
  cases (popByStyle s.queueStyle q).2.isEmpty <;> rfl

/-- `pop` serves the front key, which goes to the back or leaves. -/
theorem pop_roundRobinQueue (hrr : s.roundRobinQueue = key :: rest) :
    s.pop.1.roundRobinQueue = rest ∨ s.pop.1.roundRobinQueue = rest ++ [key] := by
  cases hq : HashMap.get? key s.perKeyQueue with
  | none =>
    rw [pop_of_cons_none hrr hq]
    exact Or.inl rfl
  | some q =>
    have hrq : (s.requeue key rest (popByStyle s.queueStyle q).2).roundRobinQueue = rest ∨
        (s.requeue key rest (popByStyle s.queueStyle q).2).roundRobinQueue = rest ++ [key] := by
      rw [requeue_roundRobinQueue]
      split_ifs
      exacts [Or.inl rfl, Or.inr rfl]
    rw [pop_of_cons hrr hq]
    split_ifs
    · simpa only [countPopped_roundRobinQueue] using hrq
    · exact hrq

@[simp] theorem pop_maxQueueSize : s.pop.1.maxQueueSize = s.maxQueueSize := by
  cases hrr : s.roundRobinQueue with
  | nil => rw [pop_of_nil hrr]
  | cons key rest =>
    cases hq : HashMap.get? key s.perKeyQueue with
    | none => rw [pop_of_cons_none hrr hq]
    | some q =>
      rw [pop_of_cons hrr hq]
      split_ifs <;> simp

@[simp] theorem pop_queueStyle : s.pop.1.queueStyle = s.queueStyle := by
  cases hrr : s.roundRobinQueue with
  | nil => rw [pop_of_nil hrr]
  | cons key rest =>
    cases hq : HashMap.get? key s.perKeyQueue with
    | none => rw [pop_of_cons_none hrr hq]
    | some q =>
      rw [pop_of_cons hrr hq]
      split_ifs <;> simp

@[simp] theorem step_queueStyle (op : Op K T) : (s.step op).1.queueStyle = s.queueStyle := by
  cases op <;> simp [PerKeyQueue.step, PerKeyQueue.clear]

@[simp] theorem step_maxQueueSize (op : Op K T) : (s.step op).1.maxQueueSize = s.maxQueueSize := by
  cases op <;> simp [PerKeyQueue.step, PerKeyQueue.clear]

/-- No call changes the bound. -/
theorem maxQueueSize_run (ops : List (Op K T)) : (run step s ops).1.maxQueueSize = s.maxQueueSize := by
  induction ops generalizing s with
  | nil => rfl
  | cons op ops ih => rw [run_cons, ih, step_maxQueueSize]

end Calls

/-! ## The invariant -/

variable [DecidableEq K]

/-- What every call keeps of a `PerKeyQueue`. -/
structure Inv (s : PerKeyQueue K T) : Prop where
  keysNodup : HashMap.KeysNodup s.perKeyQueue
  /-- each key stands at most once in the round-robin queue -/
  nodup : s.roundRobinQueue.Nodup
  /-- the round-robin queue holds exactly the keys with messages -/
  mem_iff : ∀ k, k ∈ s.roundRobinQueue ↔ s.queueOf k ≠ []
  length_le : ∀ k, (s.queueOf k).length ≤ s.maxQueueSize
  gc_lt : s.numPoppedSinceGc < POPS_PER_GC

section Inv

variable {s : PerKeyQueue K T} {key k : K} {rest : List K} {q : List T}

theorem inv_new (st : QueueStyle) (max : ℕ+) : (new st max : PerKeyQueue K T).Inv where
  keysNodup := HashMap.KeysNodup.nil
  nodup := List.nodup_nil
  mem_iff _ := by simp [new, queueOf]
  length_le _ := by simp [new, queueOf]
  gc_lt := show 0 < POPS_PER_GC by decide

/-- A key of the round-robin queue has a queue with messages. -/
theorem Inv.get?_of_mem (h : s.Inv) (hk : k ∈ s.roundRobinQueue) :
    HashMap.get? k s.perKeyQueue = some (s.queueOf k) ∧ s.queueOf k ≠ [] := by
  have hne := (h.mem_iff k).mp hk
  refine ⟨?_, hne⟩
  cases hq : HashMap.get? k s.perKeyQueue with
  | none => simp [queueOf, hq] at hne
  | some q => simp [queueOf, hq]

theorem Inv.push (h : s.Inv) (key : K) (message : T) : (s.push key message).1.Inv := by
  refine ⟨h.keysNodup.insert, ?_, fun k => ?_, fun k => ?_, h.gc_lt⟩
  · rw [push_roundRobinQueue]
    split_ifs with hq
    · -- a key without messages is not in the round-robin queue yet
      have hkey : key ∉ s.roundRobinQueue := fun hk => (h.mem_iff key).mp hk (List.isEmpty_iff.mp hq)
      exact (List.perm_append_singleton key _).nodup_iff.mpr (List.nodup_cons.mpr ⟨hkey, h.nodup⟩)
    · exact h.nodup
  · rw [push_roundRobinQueue, queueOf_push]
    by_cases hk : k = key
    · -- the pushed key has messages, and it is in the round-robin queue after the call
      subst hk
      rw [if_pos rfl]
      simp only [ne_eq, pushToKeyQueue_ne_nil, not_false_eq_true, iff_true]
      split_ifs with hq
      · exact List.mem_append_right _ (List.mem_singleton_self k)
      · exact (h.mem_iff k).mpr (fun h' => hq (List.isEmpty_iff.mpr h'))
    · rw [if_neg hk, ← h.mem_iff k]
      split_ifs <;> simp [hk]
  · rw [queueOf_push, push_maxQueueSize]
    split_ifs
    · exact length_pushToKeyQueue_le (h.length_le key)
    · exact h.length_le k

/-- What `pop` leaves before its bookkeeping, when it served the front key of a state of the
invariant. -/
theorem Inv.requeue (h : s.Inv) (hrr : s.roundRobinQueue = key :: rest) :
    (s.requeue key rest (popByStyle s.queueStyle (s.queueOf key)).2).Inv := by
  have hnd : key ∉ rest ∧ rest.Nodup := List.nodup_cons.mp (hrr ▸ h.nodup)
  set q' := (popByStyle s.queueStyle (s.queueOf key)).2 with hq'
  refine ⟨h.keysNodup.insert, ?_, fun k => ?_, fun k => ?_, h.gc_lt⟩
  · rw [requeue_roundRobinQueue]
    split_ifs
    · exact hnd.2
    · exact (List.perm_append_singleton key _).nodup_iff.mpr (List.nodup_cons.mpr hnd)
  · rw [requeue_roundRobinQueue, queueOf_requeue]
    by_cases hk : k = key
    · -- the served key is back exactly when messages are left in its queue
      subst hk
      rw [if_pos rfl]
      split_ifs with hq
      · simp [List.isEmpty_iff.mp hq, hnd.1]
      · simpa using hq
    · rw [if_neg hk, ← h.mem_iff k, hrr]
      split_ifs <;> simp [hk]
  · rw [queueOf_requeue, requeue_maxQueueSize]
    split_ifs
    · have := h.length_le key
      rw [hq', length_popByStyle]
      omega
    · exact h.length_le k

theorem Inv.countPopped (h : s.Inv) : s.countPopped.Inv := by
  have hq := queueOf_countPopped h.keysNodup
  refine ⟨keysNodup_countPopped h.keysNodup, ?_, fun k => ?_, fun k => ?_,
    countPopped_numPoppedSinceGc_lt⟩
  · rw [countPopped_roundRobinQueue]
    exact h.nodup
  · rw [countPopped_roundRobinQueue, hq]
    exact h.mem_iff k
  · rw [countPopped_maxQueueSize, hq]
    exact h.length_le k

/-- `pop` from a state of the invariant, when a key is at the front: it returns that key's next
message by the queue style, and leaves the state `requeue` and the bookkeeping give. -/
theorem Inv.pop_of_front (h : s.Inv) (hrr : s.roundRobinQueue = key :: rest) :
    s.pop = ((s.requeue key rest (popByStyle s.queueStyle (s.queueOf key)).2).countPopped,
      (popByStyle s.queueStyle (s.queueOf key)).1) ∧
      (popByStyle s.queueStyle (s.queueOf key)).1.isSome := by
  obtain ⟨hq, hne⟩ := h.get?_of_mem (hrr ▸ List.mem_cons_self)
  have hsome := popByStyle_isSome s.queueStyle hne
  refine ⟨?_, hsome⟩
  rw [pop_of_cons hrr hq, if_pos hsome]

theorem Inv.pop (h : s.Inv) : s.pop.1.Inv := by
  cases hrr : s.roundRobinQueue with
  | nil =>
    rw [pop_of_nil hrr]
    exact h
  | cons key rest =>
    rw [(h.pop_of_front hrr).1]
    exact (h.requeue hrr).countPopped

theorem Inv.clear (h : s.Inv) : s.clear.Inv where
  keysNodup := HashMap.KeysNodup.nil
  nodup := List.nodup_nil
  mem_iff _ := by simp [PerKeyQueue.clear, queueOf]
  length_le _ := by simp [PerKeyQueue.clear, queueOf]
  gc_lt := h.gc_lt

/-- **Step lemma.** Every call keeps the invariant. -/
theorem Inv.step (h : s.Inv) (op : Op K T) : (s.step op).1.Inv := by
  cases op with
  | push key message => exact h.push key message
  | pop => exact h.pop
  | clear => exact h.clear

/-- **Run lemma.** So does every run of calls. -/
theorem inv_run (h : s.Inv) (ops : List (Op K T)) : (run step s ops).1.Inv := by
  induction ops generalizing s with
  | nil => exact h
  | cons op ops ih => exact ih (h.step op)

/-- Under the invariant, no message is queued exactly when the round-robin queue is empty. -/
theorem Inv.queued_eq_nil_iff (h : s.Inv) : s.queued = [] ↔ s.roundRobinQueue = [] := by
  rw [List.eq_nil_iff_forall_not_mem (l := s.roundRobinQueue)]
  simp only [h.mem_iff, ne_eq, not_not]
  constructor
  · -- every key's queue is among the messages queued
    intro hq k
    cases hk : HashMap.get? k s.perKeyQueue with
    | none => simp [queueOf, hk]
    | some v =>
      have hv : v = [] := List.flatMap_eq_nil_iff.mp hq _ (HashMap.mem_of_get? hk)
      simp [queueOf, hk, hv]
  · intro hk
    rw [queued, List.flatMap_eq_nil_iff]
    intro e he
    have hq := hk e.1
    rwa [queueOf, HashMap.get?_of_mem h.keysNodup he] at hq

/-- Under the invariant, `pop` answers `None` exactly when no message is queued. -/
theorem Inv.pop_eq_none_iff (h : s.Inv) : s.pop.2 = none ↔ s.queued = [] := by
  rw [h.queued_eq_nil_iff]
  cases hrr : s.roundRobinQueue with
  | nil => simp [pop_of_nil hrr]
  | cons key rest =>
    obtain ⟨hpop, hsome⟩ := h.pop_of_front hrr
    rw [hpop]
    simpa [Option.isSome_iff_ne_none] using hsome

/-- **Step lemma.** A call loses and makes up no message: what the queue held and was handed is,
up to order, what it holds and gave back or discarded. -/
theorem Inv.step_perm (h : s.Inv) (op : Op K T) :
    (s.step op).1.queued ++ (s.step op).2.released ~ s.queued ++ op.pushed := by
  cases op with
  | push key message =>
    -- the queue of `key` takes the message and gives back the one it dropped
    show (s.push key message).1.queued ++ (s.push key message).2.toList ~ s.queued ++ [message]
    set r := pushToKeyQueue s.queueStyle s.maxQueueSize (s.queueOf key) message
    set R := (s.perKeyQueue.filter fun e => e.1 ≠ key).flatMap Prod.snd
    have hq : (s.push key message).1.queued = r.1 ++ R := by
      rw [queued, push_perKeyQueue, flatMap_insert]
    rw [hq, push_dropped]
    calc r.1 ++ R ++ r.2.toList ~ r.1 ++ r.2.toList ++ R := append_perm_append_swap _ _ _
      _ ~ s.queueOf key ++ [message] ++ R := (pushToKeyQueue_perm _ _ _ _).append_right R
      _ ~ s.queueOf key ++ R ++ [message] := append_perm_append_swap _ _ _
      _ ~ s.queued ++ [message] := (HashMap.flatMap_snd_perm h.keysNodup key).symm.append_right _
  | pop =>
    show s.pop.1.queued ++ s.pop.2.toList ~ s.queued ++ []
    cases hrr : s.roundRobinQueue with
    | nil => simp [pop_of_nil hrr]
    | cons key rest =>
      -- the message taken and what is left of its queue are the queue
      rw [(h.pop_of_front hrr).1, countPopped_queued, queued_requeue]
      set r := popByStyle s.queueStyle (s.queueOf key)
      set R := (s.perKeyQueue.filter fun e => e.1 ≠ key).flatMap Prod.snd
      calc r.2 ++ R ++ r.1.toList ~ r.2 ++ r.1.toList ++ R := append_perm_append_swap _ _ _
        _ ~ r.1.toList ++ r.2 ++ R := List.perm_append_comm.append_right R
        _ ~ s.queueOf key ++ R := (popByStyle_perm _ _).append_right R
        _ ~ s.queued ++ [] := by
          rw [List.append_nil]
          exact (HashMap.flatMap_snd_perm h.keysNodup key).symm
  | clear => simp [PerKeyQueue.step, PerKeyQueue.clear, queued, Answer.released, Op.pushed]

/-! ### Per-key order -/

@[simp] theorem forKey_nil : forKey k ([] : List (K × T)) = [] := rfl

theorem forKey_append (l l' : List (K × T)) : forKey k (l ++ l') = forKey k l ++ forKey k l' :=
  List.filterMap_append

theorem forKey_singleton (k' : K) (message : T) :
    forKey k [(k', message)] = if k' = k then [message] else [] := by
  simp only [forKey, List.filterMap_cons, List.filterMap_nil]
  split_ifs <;> rfl

/-- A pop from a state of the invariant changes the served key's queue alone. -/
theorem Inv.queueOf_pop (h : s.Inv) (hrr : s.roundRobinQueue = key :: rest) (k : K) :
    s.pop.1.queueOf k = if k = key then (popByStyle s.queueStyle (s.queueOf key)).2 else s.queueOf k := by
  rw [(h.pop_of_front hrr).1, queueOf_countPopped (h.requeue hrr).keysNodup, queueOf_requeue]

/-- A pop from a state of the invariant returns a message of the key at the front. -/
theorem Inv.poppedBy_pop (h : s.Inv) (hrr : s.roundRobinQueue = key :: rest) :
    s.poppedBy .pop = ((popByStyle s.queueStyle (s.queueOf key)).1.map fun m => (key, m)).toList := by
  obtain ⟨hpop, hsome⟩ := h.pop_of_front hrr
  obtain ⟨m, hm⟩ := Option.isSome_iff_exists.mp hsome
  simp [poppedBy, hrr, hpop, hm]

/-- **Step lemma.** With FIFO and KLAST, what a call returns of a key, followed by what stays
queued for it, stands in the order of what was queued for it and what the call pushed. -/
theorem Inv.order_step (h : s.Inv) (hst : s.queueStyle ≠ .lifo) (op : Op K T) (k : K) :
    forKey k (s.poppedBy op) ++ (s.step op).1.queueOf k <+ s.queueOf k ++ forKey k op.keyed := by
  cases op with
  | push key message =>
    show forKey k [] ++ (s.push key message).1.queueOf k <+ s.queueOf k ++ forKey k [(key, message)]
    rw [queueOf_push, forKey_singleton, forKey_nil, List.nil_append]
    by_cases hk : k = key
    · subst hk
      rw [if_pos rfl, if_pos rfl]
      exact pushToKeyQueue_sublist _ _ _ _
    · rw [if_neg hk, if_neg (Ne.symm hk), List.append_nil]
  | pop =>
    show forKey k (s.poppedBy .pop) ++ s.pop.1.queueOf k <+ s.queueOf k ++ forKey k []
    rw [forKey_nil, List.append_nil]
    cases hrr : s.roundRobinQueue with
    | nil => simp [poppedBy, hrr, pop_of_nil hrr]
    | cons key rest =>
      rw [h.poppedBy_pop hrr, h.queueOf_pop hrr, popByStyle_of_ne_lifo hst]
      by_cases hk : k = key
      · -- the message returned is the front of the served queue, and the rest stays
        subst hk
        cases s.queueOf k with
        | nil => simp
        | cons m q => simp [forKey_singleton]
      · cases s.queueOf key with
        | nil => simp [hk]
        | cons m q => simp [forKey_singleton, hk, Ne.symm hk]
  | clear => simp [PerKeyQueue.step, PerKeyQueue.clear, poppedBy, queueOf]

/-- **Run lemma.** With FIFO and KLAST, over a run, what the pops return of a key, followed by
what stays queued for it, stands in the order of what was queued for it and what was pushed. -/
theorem Inv.order_run (h : s.Inv) (hst : s.queueStyle ≠ .lifo) (ops : List (Op K T)) (k : K) :
    forKey k (s.popped ops) ++ (run PerKeyQueue.step s ops).1.queueOf k <+
      s.queueOf k ++ forKey k (ops.flatMap Op.keyed) := by
  induction ops generalizing s with
  | nil => simp [popped]
  | cons op ops ih =>
    have hst' : (s.step op).1.queueStyle ≠ .lifo := by rwa [step_queueStyle]
    calc forKey k (s.popped (op :: ops)) ++ (run PerKeyQueue.step s (op :: ops)).1.queueOf k
        = forKey k (s.poppedBy op) ++
            (forKey k ((s.step op).1.popped ops) ++ (run PerKeyQueue.step (s.step op).1 ops).1.queueOf k) := by
          rw [popped, forKey_append, run_cons, List.append_assoc]
      _ <+ forKey k (s.poppedBy op) ++ ((s.step op).1.queueOf k ++ forKey k (ops.flatMap Op.keyed)) :=
          (ih (h.step op) hst').append_left _
      _ = (forKey k (s.poppedBy op) ++ (s.step op).1.queueOf k) ++ forKey k (ops.flatMap Op.keyed) :=
          (List.append_assoc _ _ _).symm
      _ <+ (s.queueOf k ++ forKey k op.keyed) ++ forKey k (ops.flatMap Op.keyed) :=
          (h.order_step hst op k).append_right _
      _ = s.queueOf k ++ forKey k ((op :: ops).flatMap Op.keyed) := by
          rw [List.flatMap_cons, forKey_append, List.append_assoc]

end Inv

/-! ## Runs -/

section Runs

variable {s : PerKeyQueue K T} {k : K} {rest : List K}

/-- The states that some run of calls reaches from `new`. -/
def Reachable (s : PerKeyQueue K T) : Prop :=
  ∃ st max ops, s = (run step (new st max) ops).1

theorem Reachable.inv (hs : s.Reachable) : s.Inv := by
  obtain ⟨st, max, ops, rfl⟩ := hs
  exact inv_run (inv_new st max) ops

/-- **Round-robin queue.** In every state a run reaches, the round-robin queue holds each key
with queued messages once and no other key, no key's queue holds more than `max_queue_size`
messages, and `pop` answers `None` exactly when no message is queued. -/
theorem roundRobinQueue_run (st : QueueStyle) (max : ℕ+) (ops : List (Op K T)) :
    let s := (run step (new st max) ops).1
    s.roundRobinQueue.Nodup ∧ (∀ k, k ∈ s.roundRobinQueue ↔ s.queueOf k ≠ []) ∧
      (∀ k, (s.queueOf k).length ≤ max) ∧ (s.pop.2 = none ↔ s.queued = []) := by
  intro s
  have h : s.Inv := inv_run (inv_new st max) ops
  have hmax : s.maxQueueSize = max := maxQueueSize_run ops
  exact ⟨h.nodup, h.mem_iff, fun k => hmax ▸ h.length_le k, h.pop_eq_none_iff⟩

/-- One more call keeps the account of a run: the messages pushed are those queued and those
given back or discarded. -/
theorem Inv.trace_step {ins : List (Op K T)} {outs : List (Answer T)} (h : s.Inv)
    (hp : s.queued ++ outs.flatMap Answer.released ~ ins.flatMap Op.pushed) (op : Op K T) :
    (s.step op).1.queued ++ (outs ++ [(s.step op).2]).flatMap Answer.released ~
      (ins ++ [op]).flatMap Op.pushed := by
  rw [List.flatMap_append, List.flatMap_append, List.flatMap_singleton, List.flatMap_singleton,
    ← List.append_assoc]
  calc (s.step op).1.queued ++ outs.flatMap Answer.released ++ (s.step op).2.released
      ~ (s.step op).1.queued ++ (s.step op).2.released ++ outs.flatMap Answer.released :=
        append_perm_append_swap _ _ _
    _ ~ s.queued ++ op.pushed ++ outs.flatMap Answer.released := (h.step_perm op).append_right _
    _ ~ s.queued ++ outs.flatMap Answer.released ++ op.pushed := append_perm_append_swap _ _ _
    _ ~ ins.flatMap Op.pushed ++ op.pushed := hp.append_right _

/-- **Conservation.** Over every run, the messages pushed are, up to order, the messages still
queued together with those `push` returned as dropped, those `pop` returned and those `clear`
discarded: no message is lost, duplicated or made up. -/
theorem queued_released_run (st : QueueStyle) (max : ℕ+) (ops : List (Op K T)) :
    (run step (new st max) ops).1.queued ++ (run step (new st max) ops).2.flatMap Answer.released ~
      ops.flatMap Op.pushed := by
  have h₀ : (new st max : PerKeyQueue K T).Inv ∧
      (new st max : PerKeyQueue K T).queued ++ ([] : List (Answer T)).flatMap Answer.released ~
        ([] : List (Op K T)).flatMap Op.pushed :=
    ⟨inv_new st max, .refl _⟩
  have h := run_trace_invariant
    (fun (s : PerKeyQueue K T) (ins : List (Op K T)) (outs : List (Answer T)) =>
      s.Inv ∧ s.queued ++ outs.flatMap Answer.released ~ ins.flatMap Op.pushed)
    (fun s _ _ op hJ => ⟨hJ.1.step op, hJ.1.trace_step hJ.2 op⟩) h₀ ops
  simpa using h.2

/-- A call other than `clear` moves the round-robin queue by one step of round-robin service,
serving the key `served` names. -/
theorem step_roundRobin {op : Op K T} (hop : op ≠ .clear) :
    RoundRobin.Step s.roundRobinQueue (s.served op) (s.step op).1.roundRobinQueue := by
  cases op with
  | push key message =>
    show RoundRobin.Step _ none (s.push key message).1.roundRobinQueue
    rw [push_roundRobinQueue]
    split_ifs
    · exact .join _ key
    · exact .stay _
  | pop =>
    show RoundRobin.Step _ s.roundRobinQueue.head? s.pop.1.roundRobinQueue
    cases hrr : s.roundRobinQueue with
    | nil =>
      rw [pop_of_nil hrr, hrr]
      exact .stay _
    | cons key rest =>
      rcases pop_roundRobinQueue hrr with h | h
      · rw [h]
        exact .serveLeave key rest
      · rw [h]
        exact .serveBack key rest
  | clear => exact absurd rfl hop

/-- A run without `clear` is a run of round-robin service, serving the keys `servedKeys`
names. -/
theorem steps_run (ops : List (Op K T)) (hops : ∀ op ∈ ops, op ≠ .clear) (s : PerKeyQueue K T) :
    RoundRobin.Steps s.roundRobinQueue (s.servedKeys ops) (run step s ops).1.roundRobinQueue := by
  induction ops generalizing s with
  | nil => exact .refl _
  | cons op ops ih =>
    exact .cons (step_roundRobin (hops op List.mem_cons_self))
      (ih (fun o ho => hops o (List.mem_cons_of_mem _ ho)) _)

/-- **Fairness.** Let a pop from a reachable state serve the key `k` at the front of the
round-robin queue `k :: rest` and leave messages of `k`. Until `k` is served again, calls other
than `clear` serve keys that stood behind `k` in that queue, in its order and each at most
once. -/
theorem served_between (hs : s.Reachable) (hrr : s.roundRobinQueue = k :: rest)
    (hleft : 2 ≤ (s.queueOf k).length) (ops : List (Op K T)) (hops : ∀ op ∈ ops, op ≠ .clear)
    (hk : k ∉ s.pop.1.servedKeys ops) :
    s.pop.1.servedKeys ops <+: rest ∧ (s.pop.1.servedKeys ops).Nodup := by
  have h := hs.inv
  -- the first pop leaves messages of `k`, so `k` goes to the back
  have hback : s.pop.1.roundRobinQueue = rest ++ [k] := by
    rw [(h.pop_of_front hrr).1, countPopped_roundRobinQueue, requeue_roundRobinQueue, if_neg]
    rw [List.isEmpty_iff, ← List.length_eq_zero_iff, length_popByStyle]
    omega
  have hsteps := steps_run ops hops s.pop.1
  rw [hback] at hsteps
  have hnd : (rest ++ [k]).Nodup := hback ▸ h.pop.nodup
  exact ⟨hsteps.served_prefix hk rfl, hsteps.served_nodup hk rfl hnd⟩

/-- Three keys pushed to a FIFO queue, the first with two messages. -/
def threeKeys : PerKeyQueue ℕ ℕ :=
  (run step (new .fifo 5) [.push 1 10, .push 1 11, .push 2 20, .push 3 30]).1

/-- After key `1` is served, a pop, a push of a new key and a pop serve `2` and `3`. -/
theorem served_between_threeKeys :
    threeKeys.pop.1.servedKeys [.pop, .push 4 40, .pop] <+: [2, 3] ∧
      (threeKeys.pop.1.servedKeys [.pop, .push 4 40, .pop]).Nodup :=
  served_between ⟨.fifo, 5, _, rfl⟩ (by decide : threeKeys.roundRobinQueue = 1 :: [2, 3]) (by decide) _
    (by simp) (by decide)

/-- **Per-key order.** With FIFO and KLAST, every key's messages leave in the order they came:
over every run from `new`, the messages the pops returned for a key, followed by those still
queued for it, are a subsequence of the messages pushed for it. -/
theorem popped_queueOf_sublist (st : QueueStyle) (hst : st ≠ .lifo) (max : ℕ+) (ops : List (Op K T))
    (k : K) :
    forKey k ((new st max).popped ops) ++ (run step (new st max) ops).1.queueOf k <+
      forKey k (ops.flatMap Op.keyed) := by
  simpa [new, queueOf] using (inv_new st max).order_run hst ops k

/-- KLAST with room for two: the third message of key `1` drops the first, and the pops return
the other two in order. -/
theorem popped_queueOf_sublist_klast :
    forKey 1 ((new .klast 2 : PerKeyQueue ℕ ℕ).popped
        [.push 1 10, .push 1 11, .push 1 12, .pop, .push 2 20, .pop]) ++
      (run step (new .klast 2) [.push 1 10, .push 1 11, .push 1 12, .pop, .push 2 20, .pop]).1.queueOf 1 <+
      forKey 1 ([.push 1 10, .push 1 11, .push 1 12, .pop, .push 2 20, .pop].flatMap Op.keyed) :=
  popped_queueOf_sublist .klast (by decide) 2 _ 1

end Runs

end PerKeyQueue

end Dijets.Channel
