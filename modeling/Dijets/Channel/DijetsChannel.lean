import Dijets.Channel.MessageQueues

/-!
# The channel

`dijets_channel.rs` puts a `PerKeyQueue` behind a mutex shared by any number of `Sender`s and one
`Receiver`. Every call takes the lock for its whole body, so whatever the interleaving of the
users, a run of the channel is a sequence of whole calls on the shared state (`SharedState.step`).

A push may carry a status channel (`oneshot::Sender<ElementStatus<M>>`), here an identity of type
`C`; what is sent on it is the status a call reports. A `Waker` is an identity of type `W`, and
the waker a call wakes is reported too. A call needs its handle: a `Sender`'s calls a live sender
(`num_senders > 0`, as the `debug_assert!`s say), the `Receiver`'s calls a receiver that was not
dropped. A call without its handle cannot be made, and `step` leaves the state as it is.

## Main results

* `SharedState.Inv` — kept by every call: the per-key queues' invariant, a registered waker only
  while there is nothing to receive and a live sender, and a terminated stream only without
  senders and messages.
* `wake_of_parked` — no wake-up is lost.
* `notified_run` — a status channel is told at most one status, and `Dropped` carries the message
  pushed with it.
* `pollNext_terminated_run` — a terminated stream stays terminated and answers `Ready(None)`.
-/

set_option autoImplicit false

namespace Dijets.Channel

open Dijets.Lib
open scoped List

/-- `ElementStatus`: what a push's status channel is told. -/
inductive ElementStatus (M : Type) where
  | dequeued
  | dropped (message : M)
deriving DecidableEq

/-- `Poll<Option<M>>`, the answer of `poll_next`. -/
inductive Poll (α : Type) where
  | ready (value : α)
  | pending
deriving DecidableEq

/-- `SharedState`, with the status channels as identities `C` and the waker as an identity
`W`. -/
structure SharedState (K M C W : Type) where
  internalQueue : PerKeyQueue K (M × Option C)
  waker : Option W
  numSenders : ℕ
  receiverDropped : Bool
  streamTerminated : Bool

/-- The calls the two ends make. -/
inductive Call (K M C W : Type) where
  /-- `push_with_feedback`; `push` is the call without a status channel -/
  | push (key : K) (message : M) (statusCh : Option C)
  | cloneSender
  | dropSender
  | clear
  | dropReceiver
  | pollNext (waker : W)

/-- What a call shows outside the shared state. The items that leave the queue are kept, so that
the statuses sent can be traced to them: the item the queue dropped on a push, the item
`poll_next` took, and the items `clear` discarded. -/
inductive Effect (M C W : Type) where
  | pushed (result : Except String Unit) (dropped : Option (M × Option C)) (woken : Option W)
  | senderDropped (woken : Option W)
  | polled (result : Poll (Option M)) (popped : Option (M × Option C))
  | cleared (discarded : List (M × Option C))
  | quiet

variable {K M C W : Type}

/-- The status sent when the queue drops an item: `Dropped` with its message, to its status
channel if it has one. -/
def droppedStatus : Option (M × Option C) → Option (C × ElementStatus M)
  | some (droppedVal, some droppedStatusCh) => some (droppedStatusCh, .dropped droppedVal)
  | _ => none

/-- The status sent when `poll_next` takes an item: `Dequeued`, to its status channel. -/
def dequeuedStatus : Option (M × Option C) → Option (C × ElementStatus M)
  | some (_, some statusCh) => some (statusCh, .dequeued)
  | _ => none

namespace SharedState

/-- `dijets_channel::new`: the shared state of a new channel with its one sender; `none` where
`NonZeroUsize!` panics on a size of zero. -/
def new (queueStyle : QueueStyle) (maxQueueSizePerKey : ℕ) : Option (SharedState K M C W) :=
  if h : 0 < maxQueueSizePerKey then
    some ⟨PerKeyQueue.new queueStyle ⟨maxQueueSizePerKey, h⟩, none, 1, false, false⟩
  else none

/-- `Sender::clone`. -/
def cloneSender (s : SharedState K M C W) : SharedState K M C W :=
  { s with numSenders := s.numSenders + 1 }

/-- `Drop for Sender`: the last sender wakes the receiver. The state and the waker it woke. -/
def dropSender (s : SharedState K M C W) : SharedState K M C W × Option W :=
  let s₁ := { s with numSenders := s.numSenders - 1 }
  if s₁.numSenders = 0 then ({ s₁ with waker := none }, s₁.waker) else (s₁, none)

/-- `Receiver::clear`. -/
def clear (s : SharedState K M C W) : SharedState K M C W :=
  { s with internalQueue := s.internalQueue.clear }

/-- `Drop for Receiver`. -/
def dropReceiver (s : SharedState K M C W) : SharedState K M C W :=
  { s with receiverDropped := true }

/-- `FusedStream::is_terminated`. -/
def isTerminated (s : SharedState K M C W) : Bool := s.streamTerminated

/-- Whether a call can be made: a sender's calls need a live sender, the receiver's calls a
receiver not yet dropped. -/
def enabled (s : SharedState K M C W) : Call K M C W → Bool
  | .push _ _ _ | .cloneSender | .dropSender => 0 < s.numSenders
  | .clear | .dropReceiver | .pollNext _ => !s.receiverDropped

variable [DecidableEq K]

/-- `Sender::push_with_feedback`: the state after it, its result, the item the queue dropped
(whose status channel is told `droppedStatus`) and the waker it woke. -/
def pushWithFeedback (s : SharedState K M C W) (key : K) (message : M) (statusCh : Option C) :
    SharedState K M C W × Except String Unit × Option (M × Option C) × Option W :=
  if s.receiverDropped then (s, .error "Channel is closed", none, none)
  else
    let r := s.internalQueue.push key (message, statusCh)
    ({ s with internalQueue := r.1, waker := none }, .ok (), r.2, s.waker)

/-- `poll_next`: the state after it, its answer and the item it took (whose status channel is
told `dequeuedStatus`). -/
def pollNext (s : SharedState K M C W) (waker : W) :
    SharedState K M C W × Poll (Option M) × Option (M × Option C) :=
  let r := s.internalQueue.pop
  let s₁ := { s with internalQueue := r.1 }
  match r.2 with
  | some (val, statusCh) => (s₁, .ready (some val), some (val, statusCh))
  | none =>
    if s₁.numSenders = 0 then ({ s₁ with streamTerminated := true }, .ready none, none)
    else ({ s₁ with waker := some waker }, .pending, none)

/-- A call made with its handle. -/
def apply (s : SharedState K M C W) : Call K M C W → SharedState K M C W × Effect M C W
  | .push key message statusCh =>
    let r := s.pushWithFeedback key message statusCh
    (r.1, .pushed r.2.1 r.2.2.1 r.2.2.2)
  | .cloneSender => (s.cloneSender, .quiet)
  | .dropSender => (s.dropSender.1, .senderDropped s.dropSender.2)
  | .clear => (s.clear, .cleared s.internalQueue.queued)
  | .dropReceiver => (s.dropReceiver, .quiet)
  | .pollNext waker =>
    let r := s.pollNext waker
    (r.1, .polled r.2.1 r.2.2)

/-- One call, made under the lock; a call without its handle changes nothing. -/
def step (s : SharedState K M C W) (c : Call K M C W) : SharedState K M C W × Effect M C W :=
  if s.enabled c then s.apply c else (s, .quiet)

/-- The states some run of calls reaches from a new channel. -/
def Reachable (s : SharedState K M C W) : Prop :=
  ∃ st n s₀ calls, new st n = some s₀ ∧ s = (run step s₀ calls).1

end SharedState

/-- The status a call sends. -/
def Effect.notified : Effect M C W → Option (C × ElementStatus M)
  | .pushed _ dropped _ => droppedStatus dropped
  | .polled _ popped => dequeuedStatus popped
  | _ => none

/-- The waker a call wakes. -/
def Effect.woken : Effect M C W → Option W
  | .pushed _ _ woken => woken
  | .senderDropped woken => woken
  | _ => none

/-- The items that leave the queue in a call. -/
def Effect.released : Effect M C W → List (M × Option C)
  | .pushed _ dropped _ => dropped.toList
  | .polled _ popped => popped.toList
  | .cleared discarded => discarded
  | _ => []

/-- The item a call hands to the queue. -/
def Call.item : Call K M C W → List (M × Option C)
  | .push _ message statusCh => [(message, statusCh)]
  | _ => []

/-- A status is sent only on the status channel of the item that left the queue in the call:
`Dropped` with that item's message. -/
theorem Effect.released_of_notified {e : Effect M C W} {p : C × ElementStatus M}
    (h : e.notified = some p) : ∃ v, e.released = [(v, some p.1)] ∧ (p.2 = .dequeued ∨ p.2 = .dropped v) := by
  cases e with
  | pushed result dropped woken =>
    rcases dropped with _ | ⟨v, _ | c⟩
    · simp [Effect.notified, droppedStatus] at h
    · simp [Effect.notified, droppedStatus] at h
    · simp only [Effect.notified, droppedStatus, Option.some.injEq] at h
      exact ⟨v, by rw [← h]; rfl, Or.inr (by rw [← h])⟩
  | polled result popped =>
    rcases popped with _ | ⟨v, _ | c⟩
    · simp [Effect.notified, dequeuedStatus] at h
    · simp [Effect.notified, dequeuedStatus] at h
    · simp only [Effect.notified, dequeuedStatus, Option.some.injEq] at h
      exact ⟨v, by rw [← h]; rfl, Or.inl (by rw [← h])⟩
  | senderDropped woken => simp [Effect.notified] at h
  | cleared discarded => simp [Effect.notified] at h
  | quiet => simp [Effect.notified] at h

/-- Over a run, the status channels told are among those of the items that left the queue, in
order. -/
theorem Effect.notified_sublist (out : List (Effect M C W)) :
    (out.filterMap Effect.notified).map Prod.fst <+ (out.flatMap Effect.released).filterMap Prod.snd := by
  induction out with
  | nil => exact .slnil
  | cons e out ih =>
    rw [List.flatMap_cons, List.filterMap_append, List.filterMap_cons]
    cases hn : e.notified with
    | none => exact ih.trans (List.sublist_append_right _ _)
    | some p =>
      obtain ⟨v, hv, -⟩ := Effect.released_of_notified hn
      rw [List.map_cons, hv]
      exact ih.cons_cons _

theorem subperm_append_nil {α : Type*} (l l' : List α) : l ++ [] <+~ l ++ l' := by
  rw [List.append_nil]
  exact (List.sublist_append_left l l').subperm

/-- A sub-multiset of a list without repeats has none. -/
theorem nodup_of_subperm {α : Type*} {l₁ l₂ : List α} (h : l₁ <+~ l₂) (hn : l₂.Nodup) : l₁.Nodup := by
  obtain ⟨l, hp, hs⟩ := h
  exact hp.nodup_iff.mp (hn.sublist hs)

theorem subperm_filterMap {α β : Type*} (f : α → Option β) {l₁ l₂ : List α} (h : l₁ <+~ l₂) :
    l₁.filterMap f <+~ l₂.filterMap f := by
  obtain ⟨l, hp, hs⟩ := h
  exact ⟨l.filterMap f, hp.filterMap f, hs.filterMap f⟩

namespace SharedState

variable [DecidableEq K] {s : SharedState K M C W}

/-! ## The calls, one at a time -/

@[simp] theorem pushWithFeedback_of_receiverDropped (h : s.receiverDropped = true) (key : K)
    (message : M) (statusCh : Option C) :
    s.pushWithFeedback key message statusCh = (s, .error "Channel is closed", none, none) := by
  simp [pushWithFeedback, h]

theorem pushWithFeedback_of_not_receiverDropped (h : s.receiverDropped = false) (key : K)
    (message : M) (statusCh : Option C) :
    s.pushWithFeedback key message statusCh =
      ({ s with internalQueue := (s.internalQueue.push key (message, statusCh)).1, waker := none },
        .ok (), (s.internalQueue.push key (message, statusCh)).2, s.waker) := by
  simp [pushWithFeedback, h]

/-- `poll_next` leaves the queue as `pop` does. -/
theorem pollNext_internalQueue (w : W) : (s.pollNext w).1.internalQueue = s.internalQueue.pop.1 := by
  dsimp only [pollNext]
  split
  · rfl
  · split_ifs <;> rfl

/-- `poll_next` takes the item `pop` returns. -/
theorem pollNext_popped (w : W) : (s.pollNext w).2.2 = s.internalQueue.pop.2 := by
  dsimp only [pollNext]
  split
  · next heq => exact heq.symm
  · next heq =>
    rw [heq]
    split_ifs <;> rfl

/-- `poll_next` on a queue of the invariant with nothing queued: it ends the stream if no sender
is left, and registers the waker otherwise. -/
theorem pollNext_of_queued_eq_nil (h : s.internalQueue.Inv) (hq : s.internalQueue.queued = []) (w : W) :
    s.pollNext w = if s.numSenders = 0 then ({ s with streamTerminated := true }, .ready none, none)
      else ({ s with waker := some w }, .pending, none) := by
  have hpop : s.internalQueue.pop = (s.internalQueue, none) :=
    PerKeyQueue.pop_of_nil (h.queued_eq_nil_iff.mp hq)
  simp only [pollNext, hpop]

/-! ## The invariant -/

/-- What every call keeps of the shared state. -/
structure Inv (s : SharedState K M C W) : Prop where
  queue : s.internalQueue.Inv
  /-- the receiver waits only while there is nothing to receive and a sender may still push -/
  parked : ∀ w, s.waker = some w → s.internalQueue.queued = [] ∧ 0 < s.numSenders
  /-- a terminated stream has no sender and nothing queued -/
  terminated : s.streamTerminated = true → s.numSenders = 0 ∧ s.internalQueue.queued = []

theorem inv_new {st : QueueStyle} {n : ℕ} {s₀ : SharedState K M C W} (h : new st n = some s₀) :
    s₀.Inv := by
  unfold new at h
  split_ifs at h with hn
  cases h
  exact ⟨PerKeyQueue.inv_new st _, (fun _ hw => by cases hw), (fun ht => by cases ht)⟩

theorem Inv.pushWithFeedback (h : s.Inv) (hs : 0 < s.numSenders) (key : K) (message : M)
    (statusCh : Option C) : (s.pushWithFeedback key message statusCh).1.Inv := by
  cases hd : s.receiverDropped
  · rw [pushWithFeedback_of_not_receiverDropped hd]
    refine ⟨h.queue.push key (message, statusCh), (fun w hw => by cases hw), fun ht => ?_⟩
    exact absurd (h.terminated ht).1 (Nat.pos_iff_ne_zero.mp hs)
  · rw [pushWithFeedback_of_receiverDropped hd]
    exact h

theorem Inv.cloneSender (h : s.Inv) (hs : 0 < s.numSenders) : s.cloneSender.Inv := by
  refine ⟨h.queue, fun w hw => ⟨(h.parked w hw).1, Nat.succ_pos _⟩, fun ht => ?_⟩
  exact absurd (h.terminated ht).1 (Nat.pos_iff_ne_zero.mp hs)

theorem Inv.dropSender (h : s.Inv) : s.dropSender.1.Inv := by
  dsimp only [SharedState.dropSender]
  split_ifs with h0
  · refine ⟨h.queue, (fun w hw => by cases hw), fun ht => ⟨h0, (h.terminated ht).2⟩⟩
  · refine ⟨h.queue, fun w hw => ⟨(h.parked w hw).1, Nat.pos_iff_ne_zero.mpr h0⟩, fun ht => ?_⟩
    have := (h.terminated ht).1
    omega

theorem Inv.clear (h : s.Inv) : s.clear.Inv := by
  refine ⟨h.queue.clear, fun w hw => ⟨rfl, (h.parked w hw).2⟩, fun ht => ⟨(h.terminated ht).1, rfl⟩⟩

theorem Inv.dropReceiver (h : s.Inv) : s.dropReceiver.Inv := ⟨h.queue, h.parked, h.terminated⟩

theorem Inv.pollNext (h : s.Inv) (w : W) : (s.pollNext w).1.Inv := by
  by_cases hq : s.internalQueue.queued = []
  · -- nothing to take: the stream ends, or the receiver waits
    rw [pollNext_of_queued_eq_nil h.queue hq]
    split_ifs with h0
    · refine ⟨h.queue, fun w' hw => ?_, fun _ => ⟨h0, hq⟩⟩
      exact absurd h0 (Nat.pos_iff_ne_zero.mp (h.parked w' hw).2)
    · refine ⟨h.queue, fun w' _ => ⟨hq, Nat.pos_iff_ne_zero.mpr h0⟩, fun ht => ?_⟩
      exact absurd (h.terminated ht).1 h0
  · -- something queued: neither a waker nor the end of the stream was registered
    have hw : s.waker = none := by
      cases hw : s.waker with
      | none => rfl
      | some w' => exact absurd (h.parked w' hw).1 hq
    have ht : s.streamTerminated = false := by
      cases ht : s.streamTerminated with
      | false => rfl
      | true => exact absurd (h.terminated ht).2 hq
    have hsome : s.internalQueue.pop.2 ≠ none := fun hn => hq (h.queue.pop_eq_none_iff.mp hn)
    obtain ⟨⟨val, statusCh⟩, hp⟩ := Option.ne_none_iff_exists'.mp hsome
    have hpoll : s.pollNext w = ({ s with internalQueue := s.internalQueue.pop.1 }, .ready (some val),
        some (val, statusCh)) := by
      simp only [SharedState.pollNext, hp]
    rw [hpoll]
    refine ⟨h.queue.pop, fun w' hw' => ?_, fun ht' => ?_⟩
    · rw [hw] at hw'
      cases hw'
    · rw [ht] at ht'
      cases ht'

/-- **Step lemma.** Every call keeps the invariant. -/
theorem Inv.step (h : s.Inv) (c : Call K M C W) : (s.step c).1.Inv := by
  rw [SharedState.step]
  split_ifs with hc
  · cases c with
    | push key message statusCh => exact h.pushWithFeedback (by simpa [enabled] using hc) key message statusCh
    | cloneSender => exact h.cloneSender (by simpa [enabled] using hc)
    | dropSender => exact h.dropSender
    | clear => exact h.clear
    | dropReceiver => exact h.dropReceiver
    | pollNext w => exact h.pollNext w
  · exact h

/-- **Run lemma.** So does every run of calls. -/
theorem inv_run (h : s.Inv) (calls : List (Call K M C W)) : (run step s calls).1.Inv := by
  induction calls generalizing s with
  | nil => exact h
  | cons c calls ih => exact ih (h.step c)

theorem Reachable.inv (hs : s.Reachable) : s.Inv := by
  obtain ⟨st, n, s₀, calls, h₀, rfl⟩ := hs
  exact inv_run (inv_new h₀) calls

theorem Reachable.run (hs : s.Reachable) (calls : List (Call K M C W)) :
    (run step s calls).1.Reachable := by
  obtain ⟨st, n, s₀, calls₀, h₀, rfl⟩ := hs
  exact ⟨st, n, s₀, calls₀ ++ calls, h₀, by rw [run_append]⟩

/-! ## Wake-ups -/

/-- **No lost wake-up.** Let the receiver wait with waker `w` in a reachable state. A call after
which `poll_next` would not answer `Pending`, since a message is queued or no sender is left,
wakes `w`. -/
theorem wake_of_parked (hs : s.Reachable) {w : W} (hw : s.waker = some w) (c : Call K M C W)
    (hready : (s.step c).1.internalQueue.queued ≠ [] ∨ (s.step c).1.numSenders = 0) :
    (s.step c).2.woken = some w := by
  have h := hs.inv
  obtain ⟨hq, hn⟩ := h.parked w hw
  rw [SharedState.step] at hready ⊢
  split_ifs at hready ⊢ with hc
  · cases c with
    | push key message statusCh =>
      cases hd : s.receiverDropped
      · simp [apply, pushWithFeedback_of_not_receiverDropped hd, Effect.woken, hw]
      · simp [apply, pushWithFeedback_of_receiverDropped hd, hq] at hready
        omega
    | cloneSender => simp [apply, cloneSender, hq] at hready
    | dropSender =>
      -- the last sender wakes the receiver; any other leaves a live sender
      dsimp only [apply, dropSender] at hready ⊢
      split_ifs at hready ⊢ with h0
      · simp [Effect.woken, hw]
      · simp [hq] at hready
        exact absurd hready h0
    | clear =>
      simp [apply, SharedState.clear, PerKeyQueue.clear, PerKeyQueue.queued] at hready
      omega
    | dropReceiver =>
      simp [apply, dropReceiver, hq] at hready
      omega
    | pollNext w' =>
      dsimp only [apply] at hready
      rw [pollNext_of_queued_eq_nil h.queue hq, if_neg (Nat.pos_iff_ne_zero.mp hn)] at hready
      simp [hq] at hready
      omega
  · simp [hq] at hready
    omega

/-- A new channel over a FIFO queue of two whose receiver polled it empty and waits with waker
`7`. -/
def parkedChannel : SharedState ℕ ℕ ℕ ℕ :=
  (run step ⟨PerKeyQueue.new .fifo 2, none, 1, false, false⟩ [.pollNext 7]).1

/-- A push to the waiting channel wakes the receiver. -/
theorem wake_of_parked_push : (parkedChannel.step (.push 1 10 none)).2.woken = some 7 :=
  wake_of_parked ⟨.fifo, 2, _, [.pollNext 7], rfl, rfl⟩ (by decide) _ (by decide)

/-! ## Termination -/

theorem pollNext_streamTerminated (ht : s.streamTerminated = true) (w : W) :
    (s.pollNext w).1.streamTerminated = true := by
  dsimp only [SharedState.pollNext]
  split
  · exact ht
  · split_ifs
    · rfl
    · exact ht

/-- No call takes back the end of a stream. -/
theorem step_streamTerminated (ht : s.streamTerminated = true) (c : Call K M C W) :
    (s.step c).1.streamTerminated = true := by
  rw [SharedState.step]
  split_ifs
  · cases c with
    | push key message statusCh =>
      cases hd : s.receiverDropped
      · simpa [apply, pushWithFeedback_of_not_receiverDropped hd] using ht
      · simpa [apply, pushWithFeedback_of_receiverDropped hd] using ht
    | cloneSender => exact ht
    | dropSender =>
      dsimp only [apply, dropSender]
      split_ifs <;> exact ht
    | clear => exact ht
    | dropReceiver => exact ht
    | pollNext w => exact pollNext_streamTerminated ht w
  · exact ht

theorem streamTerminated_run (ht : s.streamTerminated = true) (calls : List (Call K M C W)) :
    (run step s calls).1.streamTerminated = true := by
  induction calls generalizing s with
  | nil => exact ht
  | cons c calls ih => exact ih (step_streamTerminated ht c)

/-- **Fused stream.** Once a reachable channel's stream is terminated, it stays terminated
through any later calls, and `poll_next` answers `Ready(None)`. -/
theorem pollNext_terminated_run (hs : s.Reachable) (ht : s.isTerminated = true)
    (calls : List (Call K M C W)) (w : W) :
    (run step s calls).1.isTerminated = true ∧ ((run step s calls).1.pollNext w).2.1 = .ready none := by
  have ht' : (run step s calls).1.streamTerminated = true := streamTerminated_run ht calls
  have h := (hs.run calls).inv
  obtain ⟨h0, hq⟩ := h.terminated ht'
  refine ⟨ht', ?_⟩
  rw [pollNext_of_queued_eq_nil h.queue hq, if_pos h0]

/-- The channel after its one sender was dropped and the receiver polled it: the stream is
terminated. -/
def endedChannel : SharedState ℕ ℕ ℕ ℕ :=
  (run step ⟨PerKeyQueue.new .fifo 2, none, 1, false, false⟩ [.dropSender, .pollNext 7]).1

/-- A clear and another poll later, the stream is still terminated. -/
theorem pollNext_terminated_run_ended :
    (run step endedChannel [.clear, .pollNext 8]).1.isTerminated = true ∧
      ((run step endedChannel [.clear, .pollNext 8]).1.pollNext 9).2.1 = .ready none :=
  pollNext_terminated_run ⟨.fifo, 2, _, [.dropSender, .pollNext 7], rfl, rfl⟩ (by decide) _ 9

/-! ## Status channels -/

/-- **Step lemma.** A call gives out of the queue only what it held or was handed. -/
theorem Inv.released_step (h : s.Inv) (c : Call K M C W) :
    (s.step c).1.internalQueue.queued ++ (s.step c).2.released <+~ s.internalQueue.queued ++ c.item := by
  rw [SharedState.step]
  split_ifs
  · cases c with
    | push key message statusCh =>
      cases hd : s.receiverDropped
      · -- the queue takes the item and gives back the one it dropped
        rw [apply, pushWithFeedback_of_not_receiverDropped hd]
        exact (h.queue.step_perm (.push key (message, statusCh))).subperm
      · rw [apply, pushWithFeedback_of_receiverDropped hd]
        exact subperm_append_nil _ _
    | pollNext w =>
      rw [apply]
      dsimp only [Effect.released, Call.item]
      rw [pollNext_internalQueue, pollNext_popped]
      exact (h.queue.step_perm .pop).subperm
    | clear => exact (List.perm_append_comm).subperm
    | dropSender =>
      dsimp only [apply, SharedState.dropSender]
      split_ifs <;> exact subperm_append_nil _ _
    | cloneSender | dropReceiver => exact subperm_append_nil _ _
  · exact subperm_append_nil _ _

/-- One more call keeps the account of a run: what left the queue and what is in it were
handed to it. -/
theorem Inv.released_trace_step {ins : List (Call K M C W)} {outs : List (Effect M C W)}
    (h : s.Inv) (hp : s.internalQueue.queued ++ outs.flatMap Effect.released <+~ ins.flatMap Call.item)
    (c : Call K M C W) :
    (s.step c).1.internalQueue.queued ++ (outs ++ [(s.step c).2]).flatMap Effect.released <+~
      (ins ++ [c]).flatMap Call.item := by
  rw [List.flatMap_append, List.flatMap_append, List.flatMap_singleton, List.flatMap_singleton,
    ← List.append_assoc]
  -- the call's account, then the run's before it
  have hstep := (List.subperm_append_right (outs.flatMap Effect.released)).mpr (h.released_step c)
  have hrest := (List.subperm_append_right c.item).mpr hp
  exact (PerKeyQueue.append_perm_append_swap _ _ _).subperm.trans
    (hstep.trans ((PerKeyQueue.append_perm_append_swap _ _ _).subperm.trans hrest))

/-- **Feedback.** Over every run from a new channel in which no status channel is handed to two
pushes, no status channel is told two statuses, and a `Dropped` status carries the message pushed
with its channel. -/
theorem notified_run {st : QueueStyle} {n : ℕ} {s₀ : SharedState K M C W} (h₀ : new st n = some s₀)
    (calls : List (Call K M C W)) (hfresh : ((calls.flatMap Call.item).filterMap Prod.snd).Nodup) :
    (((run step s₀ calls).2.filterMap Effect.notified).map Prod.fst).Nodup ∧
      ∀ c v, (c, .dropped v) ∈ (run step s₀ calls).2.filterMap Effect.notified →
        (v, some c) ∈ calls.flatMap Call.item := by
  have hJ₀ : s₀.Inv ∧ s₀.internalQueue.queued ++ ([] : List (Effect M C W)).flatMap Effect.released <+~
      ([] : List (Call K M C W)).flatMap Call.item := by
    refine ⟨inv_new h₀, ?_⟩
    unfold new at h₀
    split_ifs at h₀
    cases h₀
    exact List.Subperm.refl _
  have hJ := run_trace_invariant
    (fun (s : SharedState K M C W) (ins : List (Call K M C W)) (outs : List (Effect M C W)) =>
      s.Inv ∧ s.internalQueue.queued ++ outs.flatMap Effect.released <+~ ins.flatMap Call.item)
    (fun s _ _ c hJ => ⟨hJ.1.step c, hJ.1.released_trace_step hJ.2 c⟩) hJ₀ calls
  -- what left the queue over the run was handed to it
  have hrel : (run step s₀ calls).2.flatMap Effect.released <+~ calls.flatMap Call.item := by
    simpa using (List.sublist_append_right _ _).subperm.trans hJ.2
  refine ⟨?_, fun c v hc => ?_⟩
  · exact (nodup_of_subperm (subperm_filterMap Prod.snd hrel) hfresh).sublist
      (Effect.notified_sublist _)
  · obtain ⟨e, he, hen⟩ := List.mem_filterMap.mp hc
    obtain ⟨v', hv', hst⟩ := Effect.released_of_notified hen
    have hvv : v' = v := by
      rcases hst with hst | hst
      · cases hst
      · cases hst
        rfl
    subst hvv
    exact hrel.subset (List.mem_flatMap.mpr ⟨e, he, by rw [hv']; exact List.mem_singleton_self _⟩)

/-- Two pushes with status channels `0` and `1` to a KLAST queue of one, and a poll. -/
def feedbackCalls : List (Call ℕ ℕ ℕ ℕ) := [.push 1 10 (some 0), .push 1 11 (some 1), .pollNext 5]

/-- The second push drops the first message, whose channel is told `Dropped 10`, and the poll
tells channel `1` `Dequeued`. -/
theorem notified_run_klast :
    (((run step ⟨PerKeyQueue.new .klast 1, none, 1, false, false⟩ feedbackCalls).2.filterMap
        Effect.notified).map Prod.fst).Nodup ∧
      ∀ c v, (c, .dropped v) ∈ (run step ⟨PerKeyQueue.new .klast 1, none, 1, false, false⟩
          feedbackCalls).2.filterMap Effect.notified →
        (v, some c) ∈ feedbackCalls.flatMap Call.item :=
  notified_run (rfl : new .klast 1 = some ⟨PerKeyQueue.new .klast 1, none, 1, false, false⟩) _
    (by decide)

end SharedState

end Dijets.Channel
