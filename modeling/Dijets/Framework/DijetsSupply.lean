import Mathlib.Data.List.Perm.Basic
import Dijets.Framework.Dijets

/-!
# Conservation of a currency's value

Every coin of a registered currency is counted in its `total_value`, and every
coin set aside to be burned in its `preburn_value`: in every world that calls of
client code reach from registration, `total_value` is the value of all the coins
in existence (those client code holds, and those in every `Preburn`, whether
client code holds it, it is a resource, or it is queued) and `preburn_value` is
the value in all the preburns (`total_value_conserved`).

Each function of the module gets one lemma that says what it does to the books:
the two totals, and what the store's preburns hold. `mint_with_capability` and
`burn_with_resource_cap` are the only ones that change `total_value`, and
`preburn_with_resource`, `burn_with_resource_cap` and
`cancel_burn_with_capability` the only ones that change `preburn_value`; every
other function moves value between coins and preburns, and the lemmas say by how
much. The conservation of a call (`Conserved.call`) then only adds up.

## Main results

* `World.Conserved.call` — a call keeps the books.
* `World.total_value_conserved` — in every reachable world.
-/

set_option autoImplicit false
set_option linter.dupNamespace false

namespace Dijets.Framework

open Dijets.Lib Dijets.Lib.SortedMap

/-! ## What coins and preburns hold -/

/-- The value of a list of coins. -/
def coinSum (coins : List Dijets) : ℕ := (coins.map Dijets.value).sum

/-- The value of a preburn. -/
def Preburn.amount (p : Preburn) : ℕ := p.toBurn.value

/-- The value of a list of preburns. -/
def preburnSum (preburns : List Preburn) : ℕ := (preburns.map Preburn.amount).sum

/-- The value queued in a preburn queue. -/
def PreburnQueue.amount (q : PreburnQueue) : ℕ := (q.preburns.map fun p => p.preburn.amount).sum

@[simp] theorem coinSum_cons (c : Dijets) (coins : List Dijets) :
    coinSum (c :: coins) = c.value + coinSum coins := by
  simp [coinSum]

@[simp] theorem preburnSum_cons (p : Preburn) (preburns : List Preburn) :
    preburnSum (p :: preburns) = p.amount + preburnSum preburns := by
  simp [preburnSum]

/-- Handing a held value over takes it out of what is held. -/
theorem handOver_sum {α : Type} [DecidableEq α] (f : α → ℕ) {held rest : List α} {a : α}
    (h : handOver held a = some rest) : (held.map f).sum = f a + (rest.map f).sum := by
  unfold handOver at h
  split_ifs at h with ha
  cases h
  simpa using ((List.perm_cons_erase ha).map f).sum_nat

theorem coinSum_handOver {held rest : List Dijets} {c : Dijets} (h : handOver held c = some rest) :
    coinSum held = c.value + coinSum rest :=
  handOver_sum Dijets.value h

theorem preburnSum_handOver {held rest : List Preburn} {p : Preburn}
    (h : handOver held p = some rest) : preburnSum held = p.amount + preburnSum rest :=
  handOver_sum Preburn.amount h

/-- Removing the preburn at an index of a queue takes its value out of the queue. -/
theorem PreburnQueue.amount_eraseIdx (q : PreburnQueue) {i : ℕ} (hi : i < q.preburns.length) :
    q.amount = q.preburns[i].preburn.amount + PreburnQueue.amount ⟨q.preburns.eraseIdx i⟩ := by
  simpa [PreburnQueue.amount] using
    ((List.getElem_cons_eraseIdx_perm hi).map fun p => p.preburn.amount).sum_nat.symm

@[simp] theorem PreburnQueue.amount_append (q : PreburnQueue) (p : PreburnWithMetadata) :
    PreburnQueue.amount ⟨q.preburns ++ [p]⟩ = q.amount + p.preburn.amount := by
  simp [PreburnQueue.amount]

namespace Store

/-- What the store's preburns hold: its `Preburn` resources and every queue. -/
def preburned (s : Store) : ℕ :=
  valueSum Preburn.amount s.preburn + valueSum PreburnQueue.amount s.preburnQueue

/-- The store's maps are sorted by address, as maps built by inserts are. -/
structure Sorted (s : Store) : Prop where
  preburn : SortedMap.Sorted s.preburn
  preburnQueue : SortedMap.Sorted s.preburnQueue

/-- Writing the currency's totals leaves the maps as they were. -/
theorem Sorted.setCurrencyInfo {s : Store} (hs : s.Sorted) (info : CurrencyInfo) :
    Store.Sorted { s with currencyInfo := info } :=
  ⟨hs.preburn, hs.preburnQueue⟩

@[simp] theorem preburned_setCurrencyInfo (s : Store) (info : CurrencyInfo) :
    Store.preburned { s with currencyInfo := info } = s.preburned := rfl

end Store

/-! ## What each function does to the books -/

namespace Dijets

variable {s s' : Store}

theorem withdraw_eq_ok {coin : Dijets} {amount : ℕ} {r : Dijets × Dijets} :
    withdraw coin amount = .ok r ↔ amount ≤ coin.value ∧ r = (⟨coin.value - amount⟩, ⟨amount⟩) := by
  simp only [withdraw, Move.bind_eq_ok, Move.assert_eq_ok, Move.sub_eq_ok, pure, Except.pure,
    Except.ok.injEq, exists_const, decide_eq_true_eq, ge_iff_le]
  constructor
  · rintro ⟨hle, _, ⟨-, rfl⟩, rfl⟩
    exact ⟨hle, rfl⟩
  · rintro ⟨hle, rfl⟩
    exact ⟨hle, _, ⟨hle, rfl⟩, rfl⟩

theorem deposit_eq_ok {coin check r : Dijets} :
    deposit coin check = .ok r ↔
      coin.value + check.value ≤ Move.maxU64 ∧ r = ⟨coin.value + check.value⟩ := by
  simp only [deposit, Move.bind_eq_ok, Move.assert_eq_ok, Move.sub_eq_ok, Move.add_eq_ok, pure,
    Except.pure, Except.ok.injEq, exists_const, decide_eq_true_eq, ge_iff_le, Move.maxU64]
  constructor
  · rintro ⟨_, ⟨hle, rfl⟩, hroom, _, ⟨-, rfl⟩, rfl⟩
    exact ⟨by omega, rfl⟩
  · rintro ⟨hle, rfl⟩
    exact ⟨_, ⟨by omega, rfl⟩, by omega, _, ⟨by omega, rfl⟩, rfl⟩

theorem destroyZero_eq_ok {coin : Dijets} {u : Unit} : destroyZero coin = .ok u ↔ coin.value = 0 := by
  simp [destroyZero]

theorem mintWithCapability_eq_ok {value : ℕ} {coin : Dijets}
    (h : mintWithCapability s value = .ok (s', coin)) :
    s' = { s with currencyInfo := { s.currencyInfo with
      totalValue := s.currencyInfo.totalValue + value } } ∧ coin = ⟨value⟩ := by
  simp only [mintWithCapability, Move.bind_eq_ok, Move.assert_eq_ok, Move.sub_eq_ok, Move.add_eq_ok,
    pure, Except.pure, Except.ok.injEq, Prod.mk.injEq, exists_const] at h
  obtain ⟨-, _, -, -, _, ⟨-, rfl⟩, rfl, rfl⟩ := h
  exact ⟨rfl, rfl⟩

theorem mint_eq_ok {account value : ℕ} {coin : Dijets} (h : mint s account value = .ok (s', coin)) :
    s' = { s with currencyInfo := { s.currencyInfo with
      totalValue := s.currencyInfo.totalValue + value } } ∧ coin = ⟨value⟩ := by
  rw [mint, Move.assert_bind_eq_ok] at h
  exact mintWithCapability_eq_ok h.2

/-- `preburn_with_resource` fills an empty preburn with the coin and counts it in
`preburn_value`. -/
theorem preburnWithResource_eq_ok {coin : Dijets} {p p' : Preburn}
    (h : preburnWithResource s coin p = .ok (s', p')) :
    p.amount = 0 ∧ p'.amount = coin.value ∧
      s' = { s with currencyInfo := { s.currencyInfo with
        preburnValue := s.currencyInfo.preburnValue + coin.value } } := by
  simp only [preburnWithResource, Move.bind_eq_ok, Move.assert_eq_ok, Move.sub_eq_ok,
    Move.add_eq_ok, pure, Except.pure, Except.ok.injEq, Prod.mk.injEq, exists_const,
    beq_iff_eq] at h
  obtain ⟨hempty, toBurn, hdeposit, _, -, -, _, ⟨-, rfl⟩, rfl, rfl⟩ := h
  obtain ⟨-, rfl⟩ := Iff.mp deposit_eq_ok hdeposit
  exact ⟨hempty, by simp [Preburn.amount, hempty], rfl⟩

/-- `burn_with_resource_cap` empties a non-empty preburn and takes its value out
of both totals. -/
theorem burnWithResourceCap_eq_ok {p p' : Preburn} (h : burnWithResourceCap s p = .ok (s', p')) :
    0 < p.amount ∧ p'.amount = 0 ∧ p.amount ≤ s.currencyInfo.totalValue ∧
      p.amount ≤ s.currencyInfo.preburnValue ∧
      s' = { s with currencyInfo := { s.currencyInfo with
        totalValue := s.currencyInfo.totalValue - p.amount,
        preburnValue := s.currencyInfo.preburnValue - p.amount } } := by
  simp only [burnWithResourceCap, Move.bind_eq_ok, Move.assert_eq_ok, Move.sub_eq_ok, pure,
    Except.pure, exists_const, decide_eq_true_eq, ge_iff_le] at h
  obtain ⟨hpos, r, hall, h⟩ := h
  obtain ⟨-, rfl⟩ := Iff.mp withdraw_eq_ok hall
  dsimp only at h
  obtain ⟨htotal, _, ⟨-, rfl⟩, hpreburn, _, ⟨-, rfl⟩, h⟩ := h
  simp only [Except.ok.injEq, Prod.mk.injEq] at h
  obtain ⟨rfl, rfl⟩ := h
  exact ⟨hpos, by simp [Preburn.amount], htotal, hpreburn, rfl⟩

/-- `publish_preburn_queue` adds an empty queue at an address that had none. -/
theorem publishPreburnQueue_eq_ok {account : ℕ} (hs : s.Sorted)
    (h : publishPreburnQueue s account = .ok s') :
    s'.Sorted ∧ s'.currencyInfo = s.currencyInfo ∧ s'.preburn = s.preburn ∧
      s'.preburned = s.preburned := by
  simp only [publishPreburnQueue, Move.bind_eq_ok, Move.assert_eq_ok, pure, Except.pure,
    Except.ok.injEq, exists_const, Option.isNone_iff_eq_none] at h
  obtain ⟨_, -, -, hnone, rfl⟩ := h
  have hsum : valueSum PreburnQueue.amount (insert account ⟨[]⟩ s.preburnQueue) +
      measureAt PreburnQueue.amount account s.preburnQueue =
      valueSum PreburnQueue.amount s.preburnQueue + PreburnQueue.amount ⟨[]⟩ :=
    valueSum_insert _ hs.preburnQueue
  have hfresh : measureAt PreburnQueue.amount account s.preburnQueue = 0 := by
    simp [measureAt, hnone]
  refine ⟨⟨hs.preburn, sorted_insert hs.preburnQueue⟩, rfl, rfl, ?_⟩
  simp only [Store.preburned, PreburnQueue.amount, List.map_nil, List.sum_nil] at hsum ⊢
  omega

/-- `add_preburn_to_queue` puts the preburn's value in the dealer's queue. -/
theorem addPreburnToQueue_eq_ok {account : ℕ} {p : PreburnWithMetadata} (hs : s.Sorted)
    (h : addPreburnToQueue s account p = .ok s') :
    s'.Sorted ∧ s'.currencyInfo = s.currencyInfo ∧ s'.preburn = s.preburn ∧
      s'.preburned = s.preburned + p.preburn.amount := by
  unfold addPreburnToQueue at h
  split at h
  · rename_i queue hq
    simp only [Move.bind_eq_ok, Move.assert_eq_ok, pure, Except.pure, Except.ok.injEq,
      exists_const] at h
    obtain ⟨-, -, rfl⟩ := h
    have hsum : valueSum PreburnQueue.amount (insert account ⟨queue.preburns ++ [p]⟩ s.preburnQueue) +
        measureAt PreburnQueue.amount account s.preburnQueue =
        valueSum PreburnQueue.amount s.preburnQueue + PreburnQueue.amount ⟨queue.preburns ++ [p]⟩ :=
      valueSum_insert _ hs.preburnQueue
    have hold : measureAt PreburnQueue.amount account s.preburnQueue = queue.amount := by
      simp [measureAt, hq]
    refine ⟨⟨hs.preburn, sorted_insert hs.preburnQueue⟩, rfl, rfl, ?_⟩
    simp only [Store.preburned, PreburnQueue.amount_append] at hsum ⊢
    omega
  · cases h

/-- `upgrade_preburn` moves the value of a `Preburn` resource into the new queue. -/
theorem upgradePreburn_eq_ok {account : ℕ} (hs : s.Sorted) (h : upgradePreburn s account = .ok s') :
    s'.Sorted ∧ s'.currencyInfo = s.currencyInfo ∧ s'.preburned = s.preburned := by
  simp only [upgradePreburn, Move.bind_eq_ok] at h
  obtain ⟨_, -, h⟩ := h
  split at h
  · rename_i toBurn hp _
    obtain ⟨s₁, hpub, h⟩ := Move.bind_eq_ok.mp h
    -- the resource leaves the store, and the queue it goes to starts empty
    have herase : valueSum Preburn.amount (erase account s.preburn) +
        measureAt Preburn.amount account s.preburn = valueSum Preburn.amount s.preburn :=
      valueSum_erase _ _
    have hheld : measureAt Preburn.amount account s.preburn = toBurn.value := by
      simp [measureAt, hp, Preburn.amount]
    have hs₀ : Store.Sorted { s with preburn := erase account s.preburn } :=
      ⟨sorted_erase hs.preburn, hs.preburnQueue⟩
    obtain ⟨hs₁, hinfo₁, -, hsum₁⟩ := publishPreburnQueue_eq_ok hs₀ hpub
    simp only [Store.preburned] at hsum₁
    split_ifs at h
    · obtain ⟨hs', hinfo', -, hsum'⟩ := addPreburnToQueue_eq_ok hs₁ h
      refine ⟨hs', hinfo'.trans hinfo₁, ?_⟩
      simp only [Store.preburned, Preburn.amount] at hsum' ⊢
      omega
    · obtain ⟨_, hzero, h⟩ := Move.bind_eq_ok.mp h
      cases h
      have hz : toBurn.value = 0 := Iff.mp destroyZero_eq_ok hzero
      refine ⟨hs₁, hinfo₁, ?_⟩
      simp only [Store.preburned]
      omega
  · cases h
    exact ⟨hs, rfl, rfl⟩

/-- `preburn_to` moves the coin's value into the dealer's queue and counts it in
`preburn_value`. -/
theorem preburnTo_eq_ok {account : ℕ} {coin : Dijets} (hs : s.Sorted)
    (h : preburnTo s account coin = .ok s') :
    s'.Sorted ∧ s'.currencyInfo = { s.currencyInfo with
        preburnValue := s.currencyInfo.preburnValue + coin.value } ∧
      s'.preburned = s.preburned + coin.value := by
  simp only [preburnTo, Move.bind_eq_ok, Move.assert_eq_ok, exists_const] at h
  obtain ⟨_, -, -, s₁, hup, ⟨s₂, p⟩, hpre, hadd⟩ := h
  obtain ⟨hs₁, hinfo₁, hsum₁⟩ := upgradePreburn_eq_ok hs hup
  obtain ⟨-, hp, rfl⟩ := preburnWithResource_eq_ok hpre
  dsimp only at hadd
  obtain ⟨hs', hinfo', -, hsum'⟩ := addPreburnToQueue_eq_ok (hs₁.setCurrencyInfo _) hadd
  refine ⟨hs', by rw [hinfo', hinfo₁], ?_⟩
  simp only [Store.preburned_setCurrencyInfo, hp] at hsum'
  omega

/-- The preburn the loop of `remove_preburn_from_queue` stops at has the amount
asked for, and it leaves its queue. -/
theorem removePreburnFromQueue_eq_ok {preburnAddress amount : ℕ} {p : PreburnWithMetadata}
    (hs : s.Sorted) (h : removePreburnFromQueue s preburnAddress amount = .ok (s', p)) :
    s'.Sorted ∧ s'.currencyInfo = s.currencyInfo ∧ p.preburn.amount = amount ∧
      s'.preburned + amount = s.preburned := by
  unfold removePreburnFromQueue at h
  split at h
  · rename_i queue hq
    split at h
    · rename_i index hindex
      split at h
      · rename_i p' hp'
        cases h
        obtain ⟨hlt, hget⟩ := List.getElem?_eq_some_iff.mp hp'
        -- the loop stopped at a preburn of `amount`
        have hamount : p.preburn.amount = amount := by
          obtain ⟨_, hfound, -⟩ := List.findIdx?_eq_some_iff_getElem.mp hindex
          rw [hget] at hfound
          simpa [Preburn.amount] using hfound
        have hsum : valueSum PreburnQueue.amount
              (insert preburnAddress ⟨queue.preburns.eraseIdx index⟩ s.preburnQueue) +
            measureAt PreburnQueue.amount preburnAddress s.preburnQueue =
            valueSum PreburnQueue.amount s.preburnQueue +
              PreburnQueue.amount ⟨queue.preburns.eraseIdx index⟩ :=
          valueSum_insert _ hs.preburnQueue
        have hold : measureAt PreburnQueue.amount preburnAddress s.preburnQueue = queue.amount := by
          simp [measureAt, hq]
        have hqueue := queue.amount_eraseIdx hlt
        rw [hget, hamount] at hqueue
        refine ⟨⟨hs.preburn, sorted_insert hs.preburnQueue⟩, rfl, hamount, ?_⟩
        simp only [Store.preburned]
        omega
      · cases h
    · cases h
  · cases h

/-- `burn_with_capability` takes a queued preburn's value out of both totals. -/
theorem burnWithCapability_eq_ok {preburnAddress amount : ℕ} (hs : s.Sorted)
    (h : burnWithCapability s preburnAddress amount = .ok s') :
    s'.Sorted ∧ amount ≤ s.currencyInfo.totalValue ∧ amount ≤ s.currencyInfo.preburnValue ∧
      s'.currencyInfo = { s.currencyInfo with
        totalValue := s.currencyInfo.totalValue - amount,
        preburnValue := s.currencyInfo.preburnValue - amount } ∧
      s'.preburned + amount = s.preburned := by
  simp only [burnWithCapability, Move.bind_eq_ok] at h
  obtain ⟨⟨s₁, ⟨preburn, _⟩⟩, hremove, ⟨s₂, toBurn⟩, hburn, _, -, h⟩ := h
  cases h
  obtain ⟨hs₁, hinfo₁, hamount, hsum₁⟩ := removePreburnFromQueue_eq_ok hs hremove
  obtain ⟨-, -, htotal, hpreburn, rfl⟩ := burnWithResourceCap_eq_ok hburn
  simp only at hamount
  rw [hinfo₁, hamount] at htotal hpreburn
  refine ⟨hs₁.setCurrencyInfo _, htotal, hpreburn, by rw [hinfo₁, hamount], ?_⟩
  simpa using hsum₁

theorem burn_eq_ok {account preburnAddress amount : ℕ} (hs : s.Sorted)
    (h : burn s account preburnAddress amount = .ok s') :
    s'.Sorted ∧ amount ≤ s.currencyInfo.totalValue ∧ amount ≤ s.currencyInfo.preburnValue ∧
      s'.currencyInfo = { s.currencyInfo with
        totalValue := s.currencyInfo.totalValue - amount,
        preburnValue := s.currencyInfo.preburnValue - amount } ∧
      s'.preburned + amount = s.preburned := by
  rw [burn, Move.assert_bind_eq_ok] at h
  exact burnWithCapability_eq_ok hs h.2

/-- `cancel_burn_with_capability` takes a queued preburn's value out of
`preburn_value` and gives its coin back. -/
theorem cancelBurnWithCapability_eq_ok {preburnAddress amount : ℕ} {coin : Dijets} (hs : s.Sorted)
    (h : cancelBurnWithCapability s preburnAddress amount = .ok (s', coin)) :
    s'.Sorted ∧ amount ≤ s.currencyInfo.preburnValue ∧ coin.value = amount ∧
      s'.currencyInfo = { s.currencyInfo with
        preburnValue := s.currencyInfo.preburnValue - amount } ∧
      s'.preburned + amount = s.preburned := by
  simp only [cancelBurnWithCapability, Move.bind_eq_ok] at h
  obtain ⟨⟨s₁, ⟨⟨toBurn⟩, _⟩⟩, hremove, h⟩ := h
  obtain ⟨hs₁, hinfo₁, hamount, hsum₁⟩ := removePreburnFromQueue_eq_ok hs hremove
  simp only [Move.assert_eq_ok, Move.sub_eq_ok, pure, Except.pure, Except.ok.injEq,
    Prod.mk.injEq, exists_const, decide_eq_true_eq, ge_iff_le] at h
  obtain ⟨hpreburn, _, ⟨-, rfl⟩, rfl, rfl⟩ := h
  rw [hinfo₁] at hpreburn
  refine ⟨hs₁.setCurrencyInfo _, hpreburn, hamount, by rw [hinfo₁], ?_⟩
  simpa using hsum₁

theorem cancelBurn_eq_ok {account preburnAddress amount : ℕ} {coin : Dijets} (hs : s.Sorted)
    (h : cancelBurn s account preburnAddress amount = .ok (s', coin)) :
    s'.Sorted ∧ amount ≤ s.currencyInfo.preburnValue ∧ coin.value = amount ∧
      s'.currencyInfo = { s.currencyInfo with
        preburnValue := s.currencyInfo.preburnValue - amount } ∧
      s'.preburned + amount = s.preburned := by
  rw [cancelBurn, Move.assert_bind_eq_ok] at h
  exact cancelBurnWithCapability_eq_ok hs h.2

/-- `burn_now` takes the coin's value out of `total_value`; the caller's preburn
is empty before and after. -/
theorem burnNow_eq_ok {coin : Dijets} {p p' : Preburn} (h : burnNow s coin p = .ok (s', p')) :
    p.amount = 0 ∧ p'.amount = 0 ∧ coin.value ≤ s.currencyInfo.totalValue ∧
      s' = { s with currencyInfo := { s.currencyInfo with
        totalValue := s.currencyInfo.totalValue - coin.value } } := by
  simp only [burnNow, Move.bind_eq_ok, Move.assert_eq_ok, exists_const] at h
  obtain ⟨-, ⟨s₁, p₁⟩, hpre, hburn⟩ := h
  obtain ⟨hempty, hp₁, rfl⟩ := preburnWithResource_eq_ok hpre
  obtain ⟨-, hp', htotal, -, rfl⟩ := burnWithResourceCap_eq_ok hburn
  rw [hp₁] at htotal ⊢
  refine ⟨hempty, hp', htotal, ?_⟩
  simp

/-- `create_preburn` makes an empty preburn. -/
theorem createPreburn_eq_ok {tcAccount : ℕ} {p : Preburn} (h : createPreburn s tcAccount = .ok p) :
    p.amount = 0 := by
  simp only [createPreburn, Move.bind_eq_ok, pure, Except.pure, Except.ok.injEq] at h
  obtain ⟨_, -, rfl⟩ := h
  rfl

theorem publishPreburnQueueToAccount_eq_ok {account tcAccount : ℕ} (hs : s.Sorted)
    (h : publishPreburnQueueToAccount s account tcAccount = .ok s') :
    s'.Sorted ∧ s'.currencyInfo = s.currencyInfo ∧ s'.preburned = s.preburned := by
  simp only [publishPreburnQueueToAccount, Move.bind_eq_ok, Move.assert_eq_ok,
    exists_const] at h
  obtain ⟨_, -, _, -, -, h⟩ := h
  obtain ⟨hs', hinfo, -, hsum⟩ := publishPreburnQueue_eq_ok hs h
  exact ⟨hs', hinfo, hsum⟩

theorem updateMintingAbility_eq_ok {tcAccount : ℕ} {canMint : Bool}
    (h : updateMintingAbility s tcAccount canMint = .ok s') :
    s' = { s with currencyInfo := { s.currencyInfo with canMint } } := by
  simp only [updateMintingAbility, Move.bind_eq_ok, pure, Except.pure, Except.ok.injEq] at h
  obtain ⟨_, -, rfl⟩ := h
  rfl

end Dijets

/-! ## The books of a world -/

/-- The calls that reach `mint_with_capability` or `burn_with_resource_cap`. -/
def Call.mints : Call → Bool
  | .mint .. | .mintWithCapability _ | .burn .. | .burnWithCapability .. | .burnNow .. => true
  | _ => false

namespace World

/-- The value in all the preburns in existence: those client code holds, the
`Preburn` resources and the queues. -/
def preburned (w : World) : ℕ := preburnSum w.preburns + w.store.preburned

/-- The value of all the coins in existence: those client code holds, and those
in every preburn. -/
def supply (w : World) : ℕ := coinSum w.coins + w.preburned

/-- The currency's books are right: `total_value` is the supply, and
`preburn_value` is what the preburns hold. -/
structure Conserved (w : World) : Prop where
  sorted : w.store.Sorted
  totalValue : w.store.currencyInfo.totalValue = w.supply
  preburnValue : w.store.currencyInfo.preburnValue = w.preburned

variable {w w' : World}

/-- What a call did to the books: it kept the store's maps sorted, moved each
total by as much as what it counts moved, and, unless `mints` says it may have,
left `total_value` as it was. -/
structure Moves (w w' : World) (mints : Bool) : Prop where
  sorted : w'.store.Sorted
  totalValue : w'.store.currencyInfo.totalValue + w.supply =
    w.store.currencyInfo.totalValue + w'.supply
  preburnValue : w'.store.currencyInfo.preburnValue + w.preburned =
    w.store.currencyInfo.preburnValue + w'.preburned
  keepsTotal : mints = false → w'.store.currencyInfo.totalValue = w.store.currencyInfo.totalValue

theorem Moves.conserved {mints : Bool} (hm : Moves w w' mints) (hw : w.Conserved) :
    w'.Conserved := by
  have := hw.totalValue
  have := hw.preburnValue
  have := hm.totalValue
  have := hm.preburnValue
  exact ⟨hm.sorted, by omega, by omega⟩

/-- A call that only changes the coins client code holds, and keeps their value. -/
theorem Moves.of_coins {mints : Bool} (hs : w.store.Sorted) {coins : List Dijets}
    (h : coinSum coins = coinSum w.coins) : Moves w { w with coins } mints := by
  refine ⟨hs, ?_, rfl, fun _ => rfl⟩
  simp only [supply, preburned, h]

/-- **What a call does to the books.** Each case adds up what the function's lemma
says it did to the totals and what it did to the coins and preburns client code
holds. -/
theorem moves_of_call (hs : w.store.Sorted) {c : Call} (h : w.call c = some (.ok w')) :
    Moves w w' c.mints := by
  cases c with
  | mint account value =>
    simp only [World.call, Option.some.injEq, Move.bind_eq_ok] at h
    obtain ⟨⟨store, coin⟩, hmint, h⟩ := h
    cases h
    obtain ⟨rfl, rfl⟩ := Dijets.mint_eq_ok hmint
    refine ⟨hs.setCurrencyInfo _, ?_, rfl, nofun⟩
    simp only [supply, preburned, coinSum_cons, Store.preburned_setCurrencyInfo]
    omega
  | mintWithCapability value =>
    simp only [World.call, Option.some.injEq, Move.bind_eq_ok] at h
    obtain ⟨⟨store, coin⟩, hmint, h⟩ := h
    cases h
    obtain ⟨rfl, rfl⟩ := Dijets.mintWithCapability_eq_ok hmint
    refine ⟨hs.setCurrencyInfo _, ?_, rfl, nofun⟩
    simp only [supply, preburned, coinSum_cons, Store.preburned_setCurrencyInfo]
    omega
  | burn account preburnAddress amount =>
    simp only [World.call, Option.some.injEq, Move.bind_eq_ok] at h
    obtain ⟨store, hburn, h⟩ := h
    cases h
    obtain ⟨hs', htotal, hpreburn, hinfo, hsum⟩ := Dijets.burn_eq_ok hs hburn
    refine ⟨hs', ?_, ?_, nofun⟩ <;> simp only [supply, preburned, hinfo] <;> omega
  | cancelBurn account preburnAddress amount =>
    simp only [World.call, Option.some.injEq, Move.bind_eq_ok] at h
    obtain ⟨⟨store, coin⟩, hcancel, h⟩ := h
    cases h
    obtain ⟨hs', hpreburn, hcoin, hinfo, hsum⟩ := Dijets.cancelBurn_eq_ok hs hcancel
    refine ⟨hs', ?_, ?_, fun _ => by simp only [hinfo]⟩ <;>
      simp only [supply, preburned, coinSum_cons, hinfo] <;> omega
  | preburnTo account coin =>
    simp only [World.call, Option.map_eq_some_iff, Move.bind_eq_ok] at h
    obtain ⟨coins, hcoins, store, hpreburnTo, h⟩ := h
    cases h
    have hheld := coinSum_handOver hcoins
    obtain ⟨hs', hinfo, hsum⟩ := Dijets.preburnTo_eq_ok hs hpreburnTo
    refine ⟨hs', ?_, ?_, fun _ => by simp only [hinfo]⟩ <;>
      simp only [supply, preburned, hinfo] <;> omega
  | burnWithCapability preburnAddress amount =>
    simp only [World.call, Option.some.injEq, Move.bind_eq_ok] at h
    obtain ⟨store, hburn, h⟩ := h
    cases h
    obtain ⟨hs', htotal, hpreburn, hinfo, hsum⟩ := Dijets.burnWithCapability_eq_ok hs hburn
    refine ⟨hs', ?_, ?_, nofun⟩ <;> simp only [supply, preburned, hinfo] <;> omega
  | cancelBurnWithCapability preburnAddress amount =>
    simp only [World.call, Option.some.injEq, Move.bind_eq_ok] at h
    obtain ⟨⟨store, coin⟩, hcancel, h⟩ := h
    cases h
    obtain ⟨hs', hpreburn, hcoin, hinfo, hsum⟩ := Dijets.cancelBurnWithCapability_eq_ok hs hcancel
    refine ⟨hs', ?_, ?_, fun _ => by simp only [hinfo]⟩ <;>
      simp only [supply, preburned, coinSum_cons, hinfo] <;> omega
  | burnNow coin preburn =>
    rw [World.call] at h
    simp only [Option.bind_eq_bind, Option.bind_eq_some_iff, Option.pure_def, Option.some.injEq,
      Move.bind_eq_ok] at h
    obtain ⟨coins, hcoins, preburns, hpreburns, ⟨store, preburn'⟩, hburn, h⟩ := h
    cases h
    -- the coin leaves client code, and the caller's preburn is empty before and after
    have hheld := coinSum_handOver hcoins
    have hheldPreburns := preburnSum_handOver hpreburns
    obtain ⟨hempty, hempty', htotal, rfl⟩ := Dijets.burnNow_eq_ok hburn
    refine ⟨hs.setCurrencyInfo _, ?_, ?_, nofun⟩ <;>
      simp only [supply, preburned, preburnSum_cons, Store.preburned_setCurrencyInfo] <;> omega
  | createPreburn tcAccount =>
    simp only [World.call, Option.some.injEq, Move.bind_eq_ok] at h
    obtain ⟨preburn, hcreate, h⟩ := h
    cases h
    have hempty := Dijets.createPreburn_eq_ok hcreate
    refine ⟨hs, ?_, ?_, fun _ => rfl⟩ <;> simp only [supply, preburned, preburnSum_cons] <;> omega
  | publishPreburnQueueToAccount account tcAccount =>
    simp only [World.call, Option.some.injEq, Move.bind_eq_ok] at h
    obtain ⟨store, hpublish, h⟩ := h
    cases h
    obtain ⟨hs', hinfo, hsum⟩ := Dijets.publishPreburnQueueToAccount_eq_ok hs hpublish
    refine ⟨hs', ?_, ?_, fun _ => by simp only [hinfo]⟩ <;>
      simp only [supply, preburned, hinfo] <;> omega
  | updateMintingAbility tcAccount canMint =>
    simp only [World.call, Option.some.injEq, Move.bind_eq_ok] at h
    obtain ⟨store, hupdate, h⟩ := h
    cases h
    obtain rfl := Dijets.updateMintingAbility_eq_ok hupdate
    exact ⟨hs.setCurrencyInfo _, rfl, rfl, fun _ => rfl⟩
  | zero =>
    simp only [World.call, Option.some.injEq] at h
    cases h
    exact Moves.of_coins hs (by simp [Dijets.zero])
  | split coin amount =>
    simp only [World.call, Option.map_eq_some_iff, Move.bind_eq_ok] at h
    obtain ⟨coins, hcoins, ⟨coin₁, coin₂⟩, hsplit, h⟩ := h
    cases h
    have hheld := coinSum_handOver hcoins
    obtain ⟨hle, hr⟩ := Dijets.withdraw_eq_ok.mp hsplit
    simp only [Prod.mk.injEq] at hr
    obtain ⟨rfl, rfl⟩ := hr
    refine Moves.of_coins hs ?_
    simp only [coinSum_cons]
    omega
  | withdraw coin amount =>
    simp only [World.call, Option.map_eq_some_iff, Move.bind_eq_ok] at h
    obtain ⟨coins, hcoins, ⟨coin₁, coin₂⟩, hwithdraw, h⟩ := h
    cases h
    have hheld := coinSum_handOver hcoins
    obtain ⟨hle, hr⟩ := Dijets.withdraw_eq_ok.mp hwithdraw
    simp only [Prod.mk.injEq] at hr
    obtain ⟨rfl, rfl⟩ := hr
    refine Moves.of_coins hs ?_
    simp only [coinSum_cons]
    omega
  | withdrawAll coin =>
    simp only [World.call, Option.map_eq_some_iff, Move.bind_eq_ok] at h
    obtain ⟨coins, hcoins, ⟨coin₁, coin₂⟩, hwithdraw, h⟩ := h
    cases h
    have hheld := coinSum_handOver hcoins
    obtain ⟨-, hr⟩ := Dijets.withdraw_eq_ok.mp hwithdraw
    simp only [Prod.mk.injEq] at hr
    obtain ⟨rfl, rfl⟩ := hr
    refine Moves.of_coins hs ?_
    simp only [coinSum_cons]
    omega
  | join coin₁ coin₂ =>
    rw [World.call] at h
    simp only [Option.bind_eq_bind, Option.bind_eq_some_iff, Option.pure_def, Option.some.injEq,
      Move.bind_eq_ok] at h
    obtain ⟨coins₁, hcoins₁, coins₂, hcoins₂, joined, hjoin, h⟩ := h
    cases h
    have hheld₁ := coinSum_handOver hcoins₁
    have hheld₂ := coinSum_handOver hcoins₂
    obtain ⟨-, rfl⟩ := Dijets.deposit_eq_ok.mp hjoin
    refine Moves.of_coins hs ?_
    simp only [coinSum_cons]
    omega
  | deposit coin check =>
    rw [World.call] at h
    simp only [Option.bind_eq_bind, Option.bind_eq_some_iff, Option.pure_def, Option.some.injEq,
      Move.bind_eq_ok] at h
    obtain ⟨coins₁, hcoins₁, coins₂, hcoins₂, deposited, hdeposit, h⟩ := h
    cases h
    have hheld₁ := coinSum_handOver hcoins₁
    have hheld₂ := coinSum_handOver hcoins₂
    obtain ⟨-, rfl⟩ := Dijets.deposit_eq_ok.mp hdeposit
    refine Moves.of_coins hs ?_
    simp only [coinSum_cons]
    omega
  | destroyZero coin =>
    simp only [World.call, Option.map_eq_some_iff, Move.bind_eq_ok] at h
    obtain ⟨coins, hcoins, u, hdestroy, h⟩ := h
    cases h
    have hheld := coinSum_handOver hcoins
    have hzero := Dijets.destroyZero_eq_ok.mp hdestroy
    exact Moves.of_coins hs (by omega)

/-- A call, whether it returns, aborts, or passes what client code does not hold. -/
theorem moves_of_step (hs : w.store.Sorted) (c : Call) : Moves w (w.step c).1 c.mints := by
  unfold World.step
  split
  · rename_i hcall
    exact moves_of_call hs hcall
  · exact ⟨hs, rfl, rfl, fun _ => rfl⟩
  · exact ⟨hs, rfl, rfl, fun _ => rfl⟩

theorem Conserved.step (hw : w.Conserved) (c : Call) : (w.step c).1.Conserved :=
  (moves_of_step hw.sorted c).conserved hw

/-- Registration leaves the books right: nothing exists and both totals are zero. -/
theorem Conserved.of_registered (h : w.Registered) : w.Conserved := by
  obtain ⟨htotal, hpreburn, -, hp, hq, hc, hps⟩ := h
  have hzero : w.preburned = 0 := by
    simp [preburned, Store.preburned, hp, hq, hps, preburnSum]
  refine ⟨⟨?_, ?_⟩, ?_, ?_⟩
  · rw [hp]
    exact sorted_nil
  · rw [hq]
    exact sorted_nil
  · simp [supply, hzero, htotal, hc, coinSum]
  · rw [hzero, hpreburn]

/-- **Conservation of a currency's value.** In every world that calls of client
code reach from the currency's registration, `total_value` is the value of all the
coins in existence and `preburn_value` the value of all the preburns, and a call
that reaches neither `mint_with_capability` nor `burn_with_resource_cap` leaves
the value of all the coins as it was. -/
theorem total_value_conserved (h : w.Reachable) :
    w.store.currencyInfo.totalValue = w.supply ∧ w.store.currencyInfo.preburnValue = w.preburned ∧
      ∀ c : Call, c.mints = false → (w.step c).1.supply = w.supply := by
  obtain ⟨out, hr⟩ := h
  have hw : w.Conserved :=
    hr.invariant Conserved (fun _ => Conserved.of_registered) (fun _ c hw => hw.step c)
  refine ⟨hw.totalValue, hw.preburnValue, fun c hc => ?_⟩
  have hm := moves_of_step hw.sorted c
  have hw' := hm.conserved hw
  rw [← hw'.totalValue, ← hw.totalValue, hm.keepsTotal hc]

/-- A registered currency with a mint and burn capability at `5`, a designated
dealer at `7`, and the treasury compliance account. -/
def registeredWorld : World :=
  ⟨⟨⟨0, 0, false, true⟩, [], [], [5], [5], [(7, 2), (Roles.TreasuryCompliance, 1)]⟩, [], []⟩

/-- The dealer gets a queue and preburns a minted coin of `100`, which is burned,
while client code splits another minted coin. -/
def preburnRun : List Call :=
  [.mint 5 100, .publishPreburnQueueToAccount 7 Roles.TreasuryCompliance, .preburnTo 7 ⟨100⟩,
    .mint 5 30, .split ⟨30⟩ 10, .burn 5 7 100]

theorem total_value_conserved_preburnRun :
    (run step registeredWorld preburnRun).1.Reachable ∧
      ((run step registeredWorld preburnRun).1.store.currencyInfo.totalValue =
          (run step registeredWorld preburnRun).1.supply ∧
        (run step registeredWorld preburnRun).1.store.currencyInfo.preburnValue =
          (run step registeredWorld preburnRun).1.preburned ∧
        ∀ c : Call, c.mints = false →
          ((run step registeredWorld preburnRun).1.step c).1.supply =
            (run step registeredWorld preburnRun).1.supply) := by
  have hreach : (run step registeredWorld preburnRun).1.Reachable :=
    ⟨_, reachable_run ⟨rfl, rfl, rfl, rfl, rfl, rfl, rfl⟩ preburnRun⟩
  exact ⟨hreach, total_value_conserved hreach⟩

end World

end Dijets.Framework
