import Mathlib

/-!
# Round-robin service over a queue of keys

A round-robin scheduler keeps the keys that have work in a queue. It serves the key at the
front, and that key then goes to the back if it still has work, or leaves the queue if it has
none; a key that gets work joins at the back. Nothing else moves a key.

That is all the fairness of such a scheduler rests on, and it is stated here once, for any
queue of keys. Between two services of a key `k`, the keys served are the keys that stood
ahead of `k` after its first service, in their order (`Steps.served_prefix`): a key that is
served goes behind `k`, and so does a key that joins, so the part of the queue ahead of `k`
only loses its front. In particular no other key is served twice (`Steps.served_nodup`).

## Main definitions

* `Step q served q'` — one step of the queue, with the key it served, if any.
* `Steps q served q'` — a run of steps, with the keys served in order.
-/

set_option autoImplicit false

namespace Dijets.Lib.RoundRobin

variable {κ : Type*}

/-- One step of a round-robin queue of keys: nothing moves, a key joins at the back, or the
key at the front is served and goes to the back or leaves. -/
inductive Step : List κ → Option κ → List κ → Prop
  | stay (q : List κ) : Step q none q
  | join (q : List κ) (x : κ) : Step q none (q ++ [x])
  | serveBack (x : κ) (rest : List κ) : Step (x :: rest) (some x) (rest ++ [x])
  | serveLeave (x : κ) (rest : List κ) : Step (x :: rest) (some x) rest

/-- A run of steps from `q` to `q'` that served the keys `served`, in order. -/
inductive Steps : List κ → List κ → List κ → Prop
  | refl (q : List κ) : Steps q [] q
  | cons {q q₁ q' : List κ} {o : Option κ} {served : List κ} :
      Step q o q₁ → Steps q₁ served q' → Steps q (o.toList ++ served) q'

variable {q q' : List κ} {o : Option κ} {served : List κ} {k : κ}

/-- A front key other than `k` stood ahead of `k`. -/
theorem eq_cons_of_front {x : κ} {rest a b : List κ} (hq : x :: rest = a ++ k :: b) (hx : x ≠ k) :
    ∃ a₁, a = x :: a₁ ∧ rest = a₁ ++ k :: b := by
  cases a with
  | nil => exact absurd (List.cons.inj hq).1 hx
  | cons y a₁ =>
    obtain ⟨rfl, hrest⟩ := List.cons.inj hq
    exact ⟨a₁, rfl, hrest⟩

/-- A step that does not serve `k` keeps it, and what stood ahead of it loses at most the key
served. -/
theorem Step.ahead (h : Step q o q') (hk : o ≠ some k) {a b : List κ} (hq : q = a ++ k :: b) :
    ∃ a' b', q' = a' ++ k :: b' ∧ a = o.toList ++ a' := by
  cases h with
  | stay => exact ⟨a, b, hq, rfl⟩
  | join q x => exact ⟨a, b ++ [x], by simp [hq], rfl⟩
  | serveBack x rest =>
    -- the served key goes behind `k`
    obtain ⟨a₁, rfl, hrest⟩ := eq_cons_of_front hq (fun hx => hk (congrArg some hx))
    exact ⟨a₁, b ++ [x], by simp [hrest], rfl⟩
  | serveLeave x rest =>
    obtain ⟨a₁, rfl, hrest⟩ := eq_cons_of_front hq (fun hx => hk (congrArg some hx))
    exact ⟨a₁, b, hrest, rfl⟩

/-- A run that does not serve `k` keeps it, and the keys it served are the keys that stood ahead
of `k`, from the front. -/
theorem Steps.ahead (h : Steps q served q') (hk : k ∉ served) {a b : List κ}
    (hq : q = a ++ k :: b) : ∃ a' b', q' = a' ++ k :: b' ∧ a = served ++ a' := by
  induction h generalizing a b with
  | refl => exact ⟨a, b, hq, rfl⟩
  | @cons q q₁ q' o served hstep _ ih =>
    have ho : o ≠ some k := by
      rintro rfl
      exact hk (by simp)
    obtain ⟨a₁, b₁, hq₁, ha⟩ := hstep.ahead ho hq
    obtain ⟨a', b', hq', ha₁⟩ := ih (fun hs => hk (List.mem_append_right _ hs)) hq₁
    exact ⟨a', b', hq', by rw [ha, ha₁, List.append_assoc]⟩

/-- **Round-robin order.** Between two services of `k`, the keys served are a prefix of the keys
that stood ahead of `k`. -/
theorem Steps.served_prefix (h : Steps q served q') (hk : k ∉ served) {a b : List κ}
    (hq : q = a ++ k :: b) : served <+: a := by
  obtain ⟨a', -, -, ha⟩ := h.ahead hk hq
  exact ⟨a', ha.symm⟩

/-- **Fairness.** In a queue without repeated keys, between two services of `k` no key is
served twice. -/
theorem Steps.served_nodup (h : Steps q served q') (hk : k ∉ served) {a b : List κ}
    (hq : q = a ++ k :: b) (hnd : q.Nodup) : served.Nodup := by
  have ha : a.Nodup := (hq ▸ hnd).sublist (List.sublist_append_left a _)
  exact ha.sublist (h.served_prefix hk hq).sublist

end Dijets.Lib.RoundRobin
