import Dijets.Consensus.PersistentStorage

/-!
# The in-memory backend

`InMemoryStorage` (`secure/storage/src/in_memory.rs`) is the backend SafetyRules
runs against in tests: a map from keys to values in which every `set` succeeds,
with the key operations of `CryptoKVStorage` built on it. Only the keys
`PersistentSafetyStorage` uses are kept, each as an optional value, and the
JSON encoding of values is left out. It is a `Storage` that is lawful for the
view "the safety data under `safety_data`", which makes it a concrete instance of
the backend every theorem about SafetyRules is parametric in.
-/

set_option autoImplicit false

namespace Dijets.Consensus

/-- The values an `InMemoryStorage` holds under the keys SafetyRules uses. -/
structure InMemoryStorage where
  safetyData : Option SafetyData
  waypoint : Option Waypoint
  ownerAccount : Option Author
  consensus : Option Ed25519PrivateKey
  consensusPrevious : Option Ed25519PrivateKey
  execution : Option Ed25519PrivateKey

namespace InMemoryStorage

/-- `KVStorage::get`: the value, or `KeyNotSet`, which SafetyRules reports as
missing data. -/
def get {α : Type} (key : String) : Option α → Except Error α
  | some a => .ok a
  | none => .error (.secureStorageMissingDataError s!"Key not set: {key}")

/-- `export_private_key_for_version(CONSENSUS_KEY, version)`: the current key if
it has that public key, otherwise the previous one if it does. -/
def exportPrivateKeyForVersion (env : Env) (b : InMemoryStorage) (version : Ed25519PublicKey) :
    Except Error Ed25519PrivateKey := do
  let current ← get "consensus" b.consensus
  if env.publicKey current == version then
    return current
  let notFound : Error :=
    .secureStorageMissingDataError "Key version not found, key name: consensus"
  match b.consensusPrevious with
  | some previous => if env.publicKey previous == version then .ok previous else .error notFound
  | none => .error notFound

/-- The calls of `PersistentSafetyStorage` on an in-memory backend. Reads leave
the map alone and every write succeeds. -/
def storage (env : Env) : Storage InMemoryStorage where
  getSafetyData b := (b, get "safety_data" b.safetyData)
  setSafetyData b d := ({ b with safetyData := some d }, .ok ())
  getWaypoint b := (b, get "waypoint" b.waypoint)
  setWaypoint b w := ({ b with waypoint := some w }, .ok ())
  getAuthor b := (b, get "owner_account" b.ownerAccount)
  getExecutionPublicKey b := (b, (get "execution" b.execution).map env.publicKey)
  exportPrivateKeyForVersion b version := (b, exportPrivateKeyForVersion env b version)
  signUsingVersion b version message :=
    (b, (exportPrivateKeyForVersion env b version).map fun key => env.sign key message)

/-- The safety data the map holds (a missing entry reads as the default, which no
successful read returns). -/
def view (b : InMemoryStorage) : SafetyData := b.safetyData.getD default

theorem get_eq_ok {α : Type} {key : String} {o : Option α} {a : α} :
    get key o = .ok a ↔ o = some a := by
  cases o <;> simp [get]

theorem lawful (env : Env) : (storage env).Lawful view where
  get_ok b b' d h := by
    simp only [storage, Prod.mk.injEq] at h
    obtain ⟨-, h⟩ := h
    simp [view, Iff.mp get_eq_ok h]
  get_view _ := rfl
  set_ok b b' d h := by
    simp only [storage, Prod.mk.injEq] at h
    simp [view, ← h.1]
  set_error b b' d e h := by
    simp [storage] at h
  getWaypoint_view _ := rfl
  setWaypoint_view _ _ := rfl
  getAuthor_view _ := rfl
  getExecutionPublicKey_view _ := rfl
  export_view _ _ := rfl
  sign_view _ _ _ := rfl

/-- `SafetyData::new(1, 0, 0, 0, None)`, the safety data a new store starts with. -/
def initialSafetyData : SafetyData :=
  { epoch := 1, lastVotedRound := 0, preferredRound := 0, oneChainRound := 0, lastVote := none }

/-- The storage `PersistentSafetyStorage::initialize` makes of an empty in-memory
store: the two keys, the initial safety data, the owner account and the waypoint
are set, and the initial safety data is cached. -/
def initialized (author : Author) (consensusPrivateKey executionPrivateKey : Ed25519PrivateKey)
    (waypoint : Waypoint) (enableCachedSafetyData : Bool) : PersistentSafetyStorage InMemoryStorage :=
  { enableCachedSafetyData := enableCachedSafetyData
    cachedSafetyData := some initialSafetyData
    internalStore :=
      { safetyData := some initialSafetyData, waypoint := some waypoint,
        ownerAccount := some author, consensus := some consensusPrivateKey,
        consensusPrevious := none, execution := some executionPrivateKey } }

/-- The in-memory backend with the view it is lawful for. -/
def lawfulStorage (env : Env) : LawfulStorage InMemoryStorage :=
  ⟨storage env, view, lawful env⟩

end InMemoryStorage

end Dijets.Consensus
