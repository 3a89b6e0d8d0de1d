import Dijets.Consensus.Types

/-!
# Persistent safety storage

`PersistentSafetyStorage` keeps the safety data in a secure-storage backend and,
when `enable_cached_safety_data` is set, a copy of it in memory. The backend is
a trait object with several implementations (in memory, on disk, Vault, GitHub),
so here it is a parameter: `Storage σ` gives each call the store makes, as a
function of the backend's state `σ`. Every call may fail, and every call may move
`σ`, which is how a backend that fails now and succeeds later is described.

Errors reach SafetyRules through `From<dijets_secure_storage::Error>`, which a
`Storage` returns already converted (the conversion panics on
`PermissionDenied`, a process abort this model does not represent). The one
call whose error is converted by hand, `set(SAFETY_DATA)`, returns the storage
error's message.

`Storage.Lawful st view` says what the safety argument needs of a backend:
`view` is the safety data the backend holds, a successful read returns it, a
successful write replaces it, a failed write leaves it alone, and no other call
touches it. The cache is correct exactly when it is empty or equal to `view`;
`CacheCoherent` names that, and every operation here keeps it.
-/

set_option autoImplicit false

namespace Dijets.Consensus

/-- The calls `PersistentSafetyStorage` makes on its backend. -/
structure Storage (σ : Type) where
  /-- `get(SAFETY_DATA)`. -/
  getSafetyData : σ → σ × Except Error SafetyData
  /-- `set(SAFETY_DATA, data)`; a failure is the storage error's message. -/
  setSafetyData : σ → SafetyData → σ × Except String Unit
  /-- `get(WAYPOINT)`. -/
  getWaypoint : σ → σ × Except Error Waypoint
  /-- `set(WAYPOINT, waypoint)`. -/
  setWaypoint : σ → Waypoint → σ × Except Error Unit
  /-- `get(OWNER_ACCOUNT)`. -/
  getAuthor : σ → σ × Except Error Author
  /-- `get_public_key(EXECUTION_KEY)`. -/
  getExecutionPublicKey : σ → σ × Except Error Ed25519PublicKey
  /-- `export_private_key_for_version(CONSENSUS_KEY, version)`. -/
  exportPrivateKeyForVersion : σ → Ed25519PublicKey → σ × Except Error Ed25519PrivateKey
  /-- `sign_using_version(CONSENSUS_KEY, version, message)`. -/
  signUsingVersion : σ → Ed25519PublicKey → SigningMessage → σ × Except Error Ed25519Signature

/-- A backend whose stored safety data is `view`: reads return it, a successful
write replaces it, a failed write and every other call leave it unchanged. -/
structure Storage.Lawful {σ : Type} (st : Storage σ) (view : σ → SafetyData) : Prop where
  get_ok : ∀ b b' d, st.getSafetyData b = (b', .ok d) → d = view b
  get_view : ∀ b, view (st.getSafetyData b).1 = view b
  set_ok : ∀ b b' d, st.setSafetyData b d = (b', .ok ()) → view b' = d
  set_error : ∀ b b' d e, st.setSafetyData b d = (b', .error e) → view b' = view b
  getWaypoint_view : ∀ b, view (st.getWaypoint b).1 = view b
  setWaypoint_view : ∀ b w, view (st.setWaypoint b w).1 = view b
  getAuthor_view : ∀ b, view (st.getAuthor b).1 = view b
  getExecutionPublicKey_view : ∀ b, view (st.getExecutionPublicKey b).1 = view b
  export_view : ∀ b k, view (st.exportPrivateKeyForVersion b k).1 = view b
  sign_view : ∀ b k m, view (st.signUsingVersion b k m).1 = view b

/-- A backend bundled with the safety data it holds, as a view it is lawful for. -/
structure LawfulStorage (σ : Type) where
  backend : Storage σ
  view : σ → SafetyData
  lawful : backend.Lawful view

structure PersistentSafetyStorage (σ : Type) where
  enableCachedSafetyData : Bool
  cachedSafetyData : Option SafetyData
  internalStore : σ

namespace PersistentSafetyStorage

variable {σ : Type} (st : Storage σ)

/-- `PersistentSafetyStorage::new`: an existing store, with nothing cached. -/
def new (internalStore : σ) (enableCachedSafetyData : Bool) : PersistentSafetyStorage σ :=
  { enableCachedSafetyData := enableCachedSafetyData, cachedSafetyData := none,
    internalStore := internalStore }

/-- A call on the backend that leaves the cache alone. -/
def backend {α : Type} (call : σ → σ × Except Error α) :
    EStateM Error (PersistentSafetyStorage σ) α := fun p =>
  match call p.internalStore with
  | (b, .ok a) => .ok a { p with internalStore := b }
  | (b, .error e) => .error e { p with internalStore := b }

def author : EStateM Error (PersistentSafetyStorage σ) Author := backend st.getAuthor

def consensusKeyForVersion (version : Ed25519PublicKey) :
    EStateM Error (PersistentSafetyStorage σ) Ed25519PrivateKey :=
  backend fun b => st.exportPrivateKeyForVersion b version

def executionPublicKey : EStateM Error (PersistentSafetyStorage σ) Ed25519PublicKey :=
  backend st.getExecutionPublicKey

/-- `sign(CONSENSUS_KEY, key_version, message)`. -/
def sign (keyVersion : Ed25519PublicKey) (message : SigningMessage) :
    EStateM Error (PersistentSafetyStorage σ) Ed25519Signature :=
  backend fun b => st.signUsingVersion b keyVersion message

def waypoint : EStateM Error (PersistentSafetyStorage σ) Waypoint := backend st.getWaypoint

def setWaypoint (w : Waypoint) : EStateM Error (PersistentSafetyStorage σ) Unit :=
  backend fun b => st.setWaypoint b w

/-- `safety_data`: the cached copy when caching is on and a copy is held,
otherwise a read of the backend, which fills the cache when caching is on. -/
def safetyData : EStateM Error (PersistentSafetyStorage σ) SafetyData := fun p =>
  if !p.enableCachedSafetyData then
    backend st.getSafetyData p
  else
    match p.cachedSafetyData with
    | some cached => .ok cached p
    | none =>
      match st.getSafetyData p.internalStore with
      | (b, .ok d) => .ok d { p with internalStore := b, cachedSafetyData := some d }
      | (b, .error e) => .error e { p with internalStore := b }

/-- `set_safety_data`: on success the cache holds the new data, on failure it is
dropped so that the next read goes to the backend. -/
def setSafetyData (data : SafetyData) : EStateM Error (PersistentSafetyStorage σ) Unit :=
  fun p =>
    match st.setSafetyData p.internalStore data with
    | (b, .ok ()) => .ok () { p with internalStore := b, cachedSafetyData := some data }
    | (b, .error msg) =>
      .error (.secureStorageUnexpectedError msg) { p with internalStore := b, cachedSafetyData := none }

/-! ## The stored value and the cache -/

variable {st} {view : σ → SafetyData}

/-- The safety data the backend holds. -/
def stored (view : σ → SafetyData) (p : PersistentSafetyStorage σ) : SafetyData :=
  view p.internalStore

/-- The cache is empty or holds exactly what the backend holds. -/
def CacheCoherent (view : σ → SafetyData) (p : PersistentSafetyStorage σ) : Prop :=
  p.cachedSafetyData = none ∨ p.cachedSafetyData = some (stored view p)

end PersistentSafetyStorage

end Dijets.Consensus
