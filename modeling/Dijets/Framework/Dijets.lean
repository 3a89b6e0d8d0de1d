import Dijets.Lib.MoveArith
import Dijets.Lib.SortedMap
import Dijets.Lib.Run

/-!
# The `Dijets` currency module

`Dijets<CoinType>` is a coin of the currency `CoinType`: a `u64` value that only
this module can make, split, join or destroy. The currency's `CurrencyInfo`
resource at `@CurrencyInfo` keeps two totals: `total_value`, what was minted and
not yet burned, and `preburn_value`, what was sent to be burned and not yet
burned or given back. A designated dealer sends a coin to be burned with
`preburn_to`, which queues it in the dealer's `PreburnQueue`; the holder of the
burn capability then burns a queued preburn (`burn_with_capability`) or gives it
back (`cancel_burn_with_capability`), and `burn_now` preburns and burns at once
from a `Preburn` the caller holds. A dealer that still has a `Preburn` resource
of the module's earlier versions has it moved into a new queue on its next
`preburn_to` (`upgrade_preburn`).

The model is the storage these functions read and write for one currency, from
its registration on, and the functions as the source computes them, each to
`Except Abort`. Every `+` and `-` of the source is the checked operation of
`Move`. Events are left out: they record what happened and change no value.

Client code holds coins and preburns. `Dijets` has `store` but neither `copy`
nor `drop`, and `Preburn` has `key` and `store`, so what client code holds it
can keep, move, or hand to the module, and nothing else. `World` is the storage
together with what client code holds, and `World.step` is one call of a public
function of the module on what client code holds.

## Main definitions

* `Store` — `CurrencyInfo`, the `Preburn` and `PreburnQueue` resources, and the
  capabilities and roles the module checks.
* `Dijets.preburnTo`, `Dijets.burnWithCapability`,
  `Dijets.cancelBurnWithCapability`, `Dijets.burnNow` — the preburn and burn flow.
* `World.step` — one call of client code.
-/

set_option autoImplicit false
-- The functions of the Move module `Dijets` live in `Dijets.Framework.Dijets`.
set_option linter.dupNamespace false

namespace Dijets.Framework

open Dijets.Lib Dijets.Lib.SortedMap

/-- `Dijets<CoinType>`: a coin, by its `u64` value. -/
structure Dijets where
  value : ℕ
deriving DecidableEq, Repr

/-- `Preburn<CoinType>`: a coin set aside to be burned. -/
structure Preburn where
  toBurn : Dijets
deriving DecidableEq, Repr

/-- `PreburnWithMetadata<CoinType>`: a queued preburn, with the bytes the dealer
attached to it. -/
structure PreburnWithMetadata where
  preburn : Preburn
  metadata : List ℕ
deriving DecidableEq, Repr

/-- `PreburnQueue<CoinType>`: the preburns a designated dealer has outstanding. -/
structure PreburnQueue where
  preburns : List PreburnWithMetadata
deriving DecidableEq, Repr

/-- The fields of `CurrencyInfo<CoinType>` that the module's coin functions read.
The exchange rate, scaling factor, fractional part, currency code and event
handles are left out. -/
structure CurrencyInfo where
  totalValue : ℕ
  preburnValue : ℕ
  isSynthetic : Bool
  canMint : Bool
deriving DecidableEq, Repr

/-- What the module reads and writes in global storage for one registered
currency: `CurrencyInfo<CoinType>`, the `Preburn<CoinType>` and
`PreburnQueue<CoinType>` resources by address, the addresses where a
`MintCapability<CoinType>` or a `BurnCapability<CoinType>` is published, and the
`RoleId` resources that `Roles` checks. -/
structure Store where
  currencyInfo : CurrencyInfo
  preburn : List (ℕ × Preburn)
  preburnQueue : List (ℕ × PreburnQueue)
  mintCapability : List ℕ
  burnCapability : List ℕ
  roleId : List (ℕ × ℕ)
deriving DecidableEq, Repr

/-! ## The role checks of `Roles` and `CoreAddresses` -/

namespace Roles

def EROLE_ID : ℕ := 0
def ETREASURY_COMPLIANCE : ℕ := 2
def EDESIGNATED_DEALER : ℕ := 6
def TREASURY_COMPLIANCE_ROLE_ID : ℕ := 1
def DESIGNATED_DEALER_ROLE_ID : ℕ := 2

/-- `@TreasuryCompliance`. -/
def TreasuryCompliance : ℕ := 0xB1E55ED

/-- The `ETREASURY_COMPLIANCE` reason of `CoreAddresses`. -/
def CORE_ETREASURY_COMPLIANCE : ℕ := 1

/-- The check the `Roles::assert_*` functions share: `addr` has a `RoleId`
resource, and it names `role`. -/
def assertRole (roleId : List (ℕ × ℕ)) (addr role reason : ℕ) : Except Abort Unit :=
  match get? addr roleId with
  | none => throw (.code .notPublished EROLE_ID)
  | some r => Move.assert (r == role) (.code .requiresRole reason)

/-- `Roles::assert_designated_dealer`. -/
def assertDesignatedDealer (roleId : List (ℕ × ℕ)) (account : ℕ) : Except Abort Unit :=
  assertRole roleId account DESIGNATED_DEALER_ROLE_ID EDESIGNATED_DEALER

/-- `Roles::assert_treasury_compliance`: the account is `@TreasuryCompliance`
(`CoreAddresses::assert_treasury_compliance`) and has the role. -/
def assertTreasuryCompliance (roleId : List (ℕ × ℕ)) (account : ℕ) : Except Abort Unit := do
  Move.assert (account == TreasuryCompliance) (.code .requiresAddress CORE_ETREASURY_COMPLIANCE)
  assertRole roleId account TREASURY_COMPLIANCE_ROLE_ID ETREASURY_COMPLIANCE

end Roles

namespace Dijets

def EBURN_CAPABILITY : ℕ := 0
def ECURRENCY_INFO : ℕ := 1
def EPREBURN : ℕ := 2
def EPREBURN_OCCUPIED : ℕ := 3
def EPREBURN_EMPTY : ℕ := 4
def EMINTING_NOT_ALLOWED : ℕ := 5
def EIS_SYNTHETIC_CURRENCY : ℕ := 6
def ECOIN : ℕ := 7
def EDESTRUCTION_OF_NONZERO_COIN : ℕ := 8
def EMINT_CAPABILITY : ℕ := 9
def EAMOUNT_EXCEEDS_COIN_VALUE : ℕ := 10
def EPREBURN_QUEUE : ℕ := 11
def EPREBURN_NOT_FOUND : ℕ := 12
def MAX_OUTSTANDING_PREBURNS : ℕ := 256

/-! ## Coins -/

/-- `zero`: the currency is registered, so `assert_is_currency` passes. -/
def zero : Dijets := ⟨0⟩

/-- `withdraw`: the coin left behind, and the coin of `amount` taken out of it. -/
def withdraw (coin : Dijets) (amount : ℕ) : Except Abort (Dijets × Dijets) := do
  Move.assert (decide (coin.value ≥ amount)) (.code .limitExceeded EAMOUNT_EXCEEDS_COIN_VALUE)
  let value ← Move.sub coin.value amount
  pure (⟨value⟩, ⟨amount⟩)

/-- `split`: `withdraw` on a coin passed by value, returning both coins. -/
def split (coin : Dijets) (amount : ℕ) : Except Abort (Dijets × Dijets) :=
  withdraw coin amount

/-- `withdraw_all`. -/
def withdrawAll (coin : Dijets) : Except Abort (Dijets × Dijets) :=
  withdraw coin coin.value

/-- `deposit`: the coin with the value of `check` added, below the largest `u64`. -/
def deposit (coin check : Dijets) : Except Abort Dijets := do
  let value := check.value
  let room ← Move.sub Move.maxU64 coin.value
  Move.assert (decide (room ≥ value)) (.code .limitExceeded ECOIN)
  let value ← Move.add 64 coin.value value
  pure ⟨value⟩

/-- `join`: `deposit` into the first coin. -/
def join (coin1 coin2 : Dijets) : Except Abort Dijets :=
  deposit coin1 coin2

/-- `destroy_zero`. -/
def destroyZero (coin : Dijets) : Except Abort Unit :=
  Move.assert (coin.value == 0) (.code .invalidArgument EDESTRUCTION_OF_NONZERO_COIN)

/-! ## Minting -/

/-- `mint_with_capability`: a new coin of `value`, counted in `total_value`
below the largest `u128`. -/
def mintWithCapability (s : Store) (value : ℕ) : Except Abort (Store × Dijets) := do
  let info := s.currencyInfo
  Move.assert info.canMint (.code .invalidState EMINTING_NOT_ALLOWED)
  let room ← Move.sub Move.maxU128 info.totalValue
  Move.assert (decide (room ≥ value)) (.code .limitExceeded ECURRENCY_INFO)
  let totalValue ← Move.add 128 info.totalValue value
  pure ({ s with currencyInfo := { info with totalValue } }, ⟨value⟩)

/-- `mint`: with the mint capability published at the signer's address. -/
def mint (s : Store) (account value : ℕ) : Except Abort (Store × Dijets) := do
  Move.assert (decide (account ∈ s.mintCapability)) (.code .requiresCapability EMINT_CAPABILITY)
  mintWithCapability s value

/-- `update_minting_ability`. -/
def updateMintingAbility (s : Store) (tcAccount : ℕ) (canMint : Bool) : Except Abort Store := do
  Roles.assertTreasuryCompliance s.roleId tcAccount
  pure { s with currencyInfo := { s.currencyInfo with canMint } }

/-! ## Preburning -/

/-- `preburn_with_resource`: the coin goes into an empty preburn, and its value is
counted in `preburn_value` below the largest `u64`. -/
def preburnWithResource (s : Store) (coin : Dijets) (preburn : Preburn) :
    Except Abort (Store × Preburn) := do
  let coinValue := coin.value
  Move.assert (preburn.toBurn.value == 0) (.code .invalidState EPREBURN_OCCUPIED)
  let toBurn ← deposit preburn.toBurn coin
  let info := s.currencyInfo
  let room ← Move.sub Move.maxU64 info.preburnValue
  Move.assert (decide (room ≥ coinValue)) (.code .limitExceeded ECOIN)
  let preburnValue ← Move.add 64 info.preburnValue coinValue
  pure ({ s with currencyInfo := { info with preburnValue } }, ⟨toBurn⟩)

/-- `create_preburn`: an empty preburn, for the treasury compliance account. -/
def createPreburn (s : Store) (tcAccount : ℕ) : Except Abort Preburn := do
  Roles.assertTreasuryCompliance s.roleId tcAccount
  pure ⟨zero⟩

/-- `publish_preburn_queue`: an empty queue, for a dealer without a `Preburn`
resource or a queue. -/
def publishPreburnQueue (s : Store) (account : ℕ) : Except Abort Store := do
  Roles.assertDesignatedDealer s.roleId account
  Move.assert (get? account s.preburn).isNone (.code .invalidState EPREBURN)
  Move.assert (get? account s.preburnQueue).isNone (.code .alreadyPublished EPREBURN_QUEUE)
  pure { s with preburnQueue := insert account ⟨[]⟩ s.preburnQueue }

/-- `publish_preburn_queue_to_account`. -/
def publishPreburnQueueToAccount (s : Store) (account tcAccount : ℕ) : Except Abort Store := do
  Roles.assertDesignatedDealer s.roleId account
  Roles.assertTreasuryCompliance s.roleId tcAccount
  Move.assert (!s.currencyInfo.isSynthetic) (.code .invalidArgument EIS_SYNTHETIC_CURRENCY)
  publishPreburnQueue s account

/-- `add_preburn_to_queue`: a non-empty preburn at the end of the dealer's queue,
while the queue holds fewer than `MAX_OUTSTANDING_PREBURNS`. -/
def addPreburnToQueue (s : Store) (account : ℕ) (preburn : PreburnWithMetadata) :
    Except Abort Store := do
  let some queue := get? account s.preburnQueue
    | throw (.code .invalidState EPREBURN_QUEUE)
  Move.assert (decide (preburn.preburn.toBurn.value > 0)) (.code .invalidArgument EPREBURN)
  Move.assert (decide (queue.preburns.length < MAX_OUTSTANDING_PREBURNS))
    (.code .limitExceeded EPREBURN_QUEUE)
  pure { s with preburnQueue := insert account ⟨queue.preburns ++ [preburn]⟩ s.preburnQueue }

/-- `upgrade_preburn`: a dealer with a `Preburn` resource and no queue gets a
queue holding that preburn, if it is not empty. -/
def upgradePreburn (s : Store) (account : ℕ) : Except Abort Store := do
  Roles.assertDesignatedDealer s.roleId account
  match get? account s.preburn, get? account s.preburnQueue with
  | some ⟨toBurn⟩, none =>
    let s ← publishPreburnQueue { s with preburn := erase account s.preburn } account
    if toBurn.value > 0 then
      addPreburnToQueue s account ⟨⟨toBurn⟩, []⟩
    else do
      destroyZero toBurn
      pure s
  | _, _ => pure s

/-- `preburn_to`: a non-zero coin, preburned into a new entry of the dealer's
queue. -/
def preburnTo (s : Store) (account : ℕ) (coin : Dijets) : Except Abort Store := do
  Roles.assertDesignatedDealer s.roleId account
  Move.assert (decide (coin.value > 0)) (.code .invalidArgument ECOIN)
  let s ← upgradePreburn s account
  let preburn : PreburnWithMetadata := ⟨⟨zero⟩, []⟩
  let (s, p) ← preburnWithResource s coin preburn.preburn
  addPreburnToQueue s account { preburn with preburn := p }

/-! ## Burning -/

/-- The index the loop of `remove_preburn_from_queue` stops at: the first
preburn of the queue whose value is `amount`. -/
def findPreburn (preburns : List PreburnWithMetadata) (amount : ℕ) : Option ℕ :=
  preburns.findIdx? fun p => p.preburn.toBurn.value == amount

/-- `remove_preburn_from_queue`: the first queued preburn of `amount` leaves the
queue at `preburn_address`. -/
def removePreburnFromQueue (s : Store) (preburnAddress amount : ℕ) :
    Except Abort (Store × PreburnWithMetadata) := do
  let some queue := get? preburnAddress s.preburnQueue
    | throw (.code .notPublished EPREBURN_QUEUE)
  match findPreburn queue.preburns amount with
  | some index =>
    match queue.preburns[index]? with
    | some preburn =>
      let rest : PreburnQueue := ⟨queue.preburns.eraseIdx index⟩
      pure ({ s with preburnQueue := insert preburnAddress rest s.preburnQueue }, preburn)
    | none => throw (.code .invalidState EPREBURN_NOT_FOUND)
  | none => throw (.code .invalidState EPREBURN_NOT_FOUND)

/-- `burn_with_resource_cap`: the preburn's coin is taken out and its value
leaves both totals. -/
def burnWithResourceCap (s : Store) (preburn : Preburn) : Except Abort (Store × Preburn) := do
  Move.assert (decide (preburn.toBurn.value > 0)) (.code .invalidState EPREBURN_EMPTY)
  let (toBurn, ⟨value⟩) ← withdrawAll preburn.toBurn
  let info := s.currencyInfo
  Move.assert (decide (info.totalValue ≥ value)) (.code .limitExceeded ECURRENCY_INFO)
  let totalValue ← Move.sub info.totalValue value
  Move.assert (decide (info.preburnValue ≥ value)) (.code .limitExceeded EPREBURN)
  let preburnValue ← Move.sub info.preburnValue value
  pure ({ s with currencyInfo := { info with totalValue, preburnValue } }, ⟨toBurn⟩)

/-- `burn_with_capability`: burn the first queued preburn of `amount`. -/
def burnWithCapability (s : Store) (preburnAddress amount : ℕ) : Except Abort Store := do
  let (s, ⟨preburn, _⟩) ← removePreburnFromQueue s preburnAddress amount
  let (s, ⟨toBurn⟩) ← burnWithResourceCap s preburn
  destroyZero toBurn
  pure s

/-- `burn`: with the burn capability published at the signer's address. -/
def burn (s : Store) (account preburnAddress amount : ℕ) : Except Abort Store := do
  Move.assert (decide (account ∈ s.burnCapability)) (.code .requiresCapability EBURN_CAPABILITY)
  burnWithCapability s preburnAddress amount

/-- `cancel_burn_with_capability`: the first queued preburn of `amount` leaves the
queue and `preburn_value`, and its coin is returned. -/
def cancelBurnWithCapability (s : Store) (preburnAddress amount : ℕ) :
    Except Abort (Store × Dijets) := do
  let (s, ⟨⟨toBurn⟩, _⟩) ← removePreburnFromQueue s preburnAddress amount
  let info := s.currencyInfo
  Move.assert (decide (info.preburnValue ≥ amount)) (.code .limitExceeded EPREBURN)
  let preburnValue ← Move.sub info.preburnValue amount
  pure ({ s with currencyInfo := { info with preburnValue } }, toBurn)

/-- `cancel_burn`: with the burn capability published at the signer's address. -/
def cancelBurn (s : Store) (account preburnAddress amount : ℕ) : Except Abort (Store × Dijets) := do
  Move.assert (decide (account ∈ s.burnCapability)) (.code .requiresCapability EBURN_CAPABILITY)
  cancelBurnWithCapability s preburnAddress amount

/-- `burn_now`: preburn a non-zero coin into the caller's preburn and burn it. -/
def burnNow (s : Store) (coin : Dijets) (preburn : Preburn) : Except Abort (Store × Preburn) := do
  Move.assert (decide (coin.value > 0)) (.code .invalidArgument ECOIN)
  let (s, preburn) ← preburnWithResource s coin preburn
  burnWithResourceCap s preburn

end Dijets

/-! ## Client code -/

/-- The storage, the coins client code holds (in the running transaction or in
its own resources), and the `Preburn` values it holds. -/
structure World where
  store : Store
  coins : List Dijets
  preburns : List Preburn
deriving DecidableEq, Repr

/-- A call of a public function of the module. The coins and preburns it passes
are values client code holds; the `*_with_capability` functions are called by
client code that holds the capability. -/
inductive Call where
  | mint (account value : ℕ)
  | mintWithCapability (value : ℕ)
  | burn (account preburnAddress amount : ℕ)
  | cancelBurn (account preburnAddress amount : ℕ)
  | preburnTo (account : ℕ) (coin : Dijets)
  | burnWithCapability (preburnAddress amount : ℕ)
  | cancelBurnWithCapability (preburnAddress amount : ℕ)
  | burnNow (coin : Dijets) (preburn : Preburn)
  | createPreburn (tcAccount : ℕ)
  | publishPreburnQueueToAccount (account tcAccount : ℕ)
  | updateMintingAbility (tcAccount : ℕ) (canMint : Bool)
  | zero
  | split (coin : Dijets) (amount : ℕ)
  | withdraw (coin : Dijets) (amount : ℕ)
  | withdrawAll (coin : Dijets)
  | join (coin1 coin2 : Dijets)
  | deposit (coin check : Dijets)
  | destroyZero (coin : Dijets)
deriving DecidableEq, Repr

/-- What client code holds once it hands `a` over, if it holds it. -/
def handOver {α : Type} [DecidableEq α] (held : List α) (a : α) : Option (List α) :=
  if a ∈ held then some (held.erase a) else none

namespace World

/-- One call: `none` when it passes a value client code does not hold, and
otherwise the call's abort or the world after it. A coin passed by `&mut`
(`withdraw`, `withdraw_all`, `deposit`) stays with client code, changed. -/
def call (w : World) : Call → Option (Except Abort World)
  | .mint account value => some do
    let (store, coin) ← Dijets.mint w.store account value
    pure { w with store, coins := coin :: w.coins }
  | .mintWithCapability value => some do
    let (store, coin) ← Dijets.mintWithCapability w.store value
    pure { w with store, coins := coin :: w.coins }
  | .burn account preburnAddress amount => some do
    let store ← Dijets.burn w.store account preburnAddress amount
    pure { w with store }
  | .cancelBurn account preburnAddress amount => some do
    let (store, coin) ← Dijets.cancelBurn w.store account preburnAddress amount
    pure { w with store, coins := coin :: w.coins }
  | .preburnTo account coin => (handOver w.coins coin).map fun coins => do
    let store ← Dijets.preburnTo w.store account coin
    pure { w with store, coins }
  | .burnWithCapability preburnAddress amount => some do
    let store ← Dijets.burnWithCapability w.store preburnAddress amount
    pure { w with store }
  | .cancelBurnWithCapability preburnAddress amount => some do
    let (store, coin) ← Dijets.cancelBurnWithCapability w.store preburnAddress amount
    pure { w with store, coins := coin :: w.coins }
  | .burnNow coin preburn => do
    let coins ← handOver w.coins coin
    let preburns ← handOver w.preburns preburn
    pure do
      let (store, preburn) ← Dijets.burnNow w.store coin preburn
      pure { w with store, coins, preburns := preburn :: preburns }
  | .createPreburn tcAccount => some do
    let preburn ← Dijets.createPreburn w.store tcAccount
    pure { w with preburns := preburn :: w.preburns }
  | .publishPreburnQueueToAccount account tcAccount => some do
    let store ← Dijets.publishPreburnQueueToAccount w.store account tcAccount
    pure { w with store }
  | .updateMintingAbility tcAccount canMint => some do
    let store ← Dijets.updateMintingAbility w.store tcAccount canMint
    pure { w with store }
  | .zero => some (pure { w with coins := Dijets.zero :: w.coins })
  | .split coin amount => (handOver w.coins coin).map fun coins => do
    let (coin, other) ← Dijets.split coin amount
    pure { w with coins := coin :: other :: coins }
  | .withdraw coin amount => (handOver w.coins coin).map fun coins => do
    let (coin, other) ← Dijets.withdraw coin amount
    pure { w with coins := coin :: other :: coins }
  | .withdrawAll coin => (handOver w.coins coin).map fun coins => do
    let (coin, other) ← Dijets.withdrawAll coin
    pure { w with coins := coin :: other :: coins }
  | .join coin1 coin2 => do
    let coins ← handOver w.coins coin1
    let coins ← handOver coins coin2
    pure do
      let coin ← Dijets.join coin1 coin2
      pure { w with coins := coin :: coins }
  | .deposit coin check => do
    let coins ← handOver w.coins coin
    let coins ← handOver coins check
    pure do
      let coin ← Dijets.deposit coin check
      pure { w with coins := coin :: coins }
  | .destroyZero coin => (handOver w.coins coin).map fun coins => do
    Dijets.destroyZero coin
    pure { w with coins }

/-- The machine of client code's calls: a call that aborts, or that passes what
client code does not hold, leaves the world as it was. The answer is the abort,
if any. -/
def step (w : World) (c : Call) : World × Option Abort :=
  match w.call c with
  | some (.ok w') => (w', none)
  | some (.error e) => (w, some e)
  | none => (w, none)

/-- The world `register_currency` leaves: both totals are zero, minting is
allowed, and no coin, preburn or queue of the currency exists. The roles, the
capabilities and whether the currency is synthetic are any. -/
def Registered (w : World) : Prop :=
  w.store.currencyInfo.totalValue = 0 ∧ w.store.currencyInfo.preburnValue = 0 ∧
    w.store.currencyInfo.canMint = true ∧ w.store.preburn = [] ∧ w.store.preburnQueue = [] ∧
    w.coins = [] ∧ w.preburns = []

/-- A world some sequence of calls reaches from registration. -/
def Reachable (w : World) : Prop :=
  ∃ out, Lib.Reachable Registered step w out

end World

end Dijets.Framework
