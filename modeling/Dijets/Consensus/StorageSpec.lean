import Mathlib
import Dijets.Lib.EStateSpec
import Dijets.Consensus.SafetyRules

/-!
# Triples for the calls SafetyRules makes on its storage

Every request of SafetyRules reads and writes its safety data through
`PersistentSafetyStorage`, and its safety rests on two facts about those calls:
a read from a state whose cache is coherent returns the data the backend really
holds, and only `set_safety_data` changes that data. This module states each
call as a triple of `Std.Do`, over a backend that is `Storage.Lawful`, so that
`mvcgen` can assemble the triple of a whole request from them.

`stored view s` is the safety data the backend of `s` holds and `Coherent view s`
says the cache agrees with it. A call is specified from a ghost state `s₀`, the
state it starts in, and relates the state it ends in to it: `Keeps view s₀ s`
(same stored data, a cache that stays coherent) for every call but the write,
and `Kept view d s` (coherent, holding `d`) after a write.
-/

set_option autoImplicit false
set_option mvcgen.warning false

namespace Dijets.Consensus

open Std.Do Dijets.Lib

namespace SafetyRules

variable {σ : Type} {st : Storage σ} {env : Env} {view : σ → SafetyData}

/-- The safety data the backend of `s` holds. -/
def stored (view : σ → SafetyData) (s : SafetyRules σ) : SafetyData :=
  view s.persistentStorage.internalStore

/-- The cached safety data, if any, is what the backend holds. -/
def Coherent (view : σ → SafetyData) (s : SafetyRules σ) : Prop :=
  PersistentSafetyStorage.CacheCoherent view s.persistentStorage

/-- Coherent, and the backend holds `d`. -/
def Kept (view : σ → SafetyData) (d : SafetyData) (s : SafetyRules σ) : Prop :=
  Coherent view s ∧ stored view s = d

/-- `s` holds the safety data `s₀` held, with a cache that is coherent if `s₀`'s was. -/
def Keeps (view : σ → SafetyData) (s₀ s : SafetyRules σ) : Prop :=
  (Coherent view s₀ → Coherent view s) ∧ stored view s = stored view s₀

theorem Keeps.refl (s : SafetyRules σ) : Keeps view s s := ⟨id, rfl⟩

theorem Keeps.trans {s₀ s₁ s₂ : SafetyRules σ} (h₁ : Keeps view s₀ s₁) (h₂ : Keeps view s₁ s₂) :
    Keeps view s₀ s₂ :=
  ⟨h₂.1 ∘ h₁.1, h₂.2.trans h₁.2⟩

/-! Changing a field other than the storage changes neither the stored data nor
the cache. -/

@[simp, grind =] theorem stored_setEpochState (s : SafetyRules σ) (e : Option EpochState) :
    stored view { s with epochState := e } = stored view s := rfl

@[simp, grind =] theorem coherent_setEpochState (s : SafetyRules σ) (e : Option EpochState) :
    Coherent view { s with epochState := e } ↔ Coherent view s := Iff.rfl

@[simp, grind =] theorem stored_setValidatorSigner (s : SafetyRules σ)
    (v : Option ConfigurableValidatorSigner) :
    stored view { s with validatorSigner := v } = stored view s := rfl

@[simp, grind =] theorem coherent_setValidatorSigner (s : SafetyRules σ)
    (v : Option ConfigurableValidatorSigner) :
    Coherent view { s with validatorSigner := v } ↔ Coherent view s := Iff.rfl

/-! ## Calls on the storage

Each call is specified from a state `s₀`, the ghost state its precondition
names, so that its postcondition can relate the state it ends in to the one it
started from. -/

theorem storage_run {α : Type} (m : EStateM Error (PersistentSafetyStorage σ) α)
    (s : SafetyRules σ) :
    (storage m).run s = match m s.persistentStorage with
      | .ok a p => .ok a { s with persistentStorage := p }
      | .error e p => .error e { s with persistentStorage := p } := rfl

/-- Moving the backend to a state with the same view keeps the stored data and
the cache. -/
theorem keeps_withStore {s : SafetyRules σ} {b : σ}
    (hb : view b = stored view s) :
    Keeps view s { s with persistentStorage := { s.persistentStorage with internalStore := b } } := by
  simp only [Keeps, Coherent, PersistentSafetyStorage.CacheCoherent, stored,
    PersistentSafetyStorage.stored] at hb ⊢
  rw [hb]
  exact ⟨id, rfl⟩

/-- A backend call that leaves the stored data alone keeps it and the cache. -/
theorem storage_backend_spec {α : Type} {call : σ → σ × Except Error α}
    (hview : ∀ b, view (call b).1 = view b) (s₀ : SafetyRules σ) :
    ⦃fun s => ⌜s = s₀⌝⦄ storage (PersistentSafetyStorage.backend call)
    ⦃post⟨fun _ s => ⌜Keeps view s₀ s⌝, fun _ s => ⌜Keeps view s₀ s⌝⟩⦄ := by
  rw [triple_iff]
  rintro s rfl
  have hb := hview s.persistentStorage.internalStore
  rw [storage_run]
  simp only [PersistentSafetyStorage.backend]
  rcases h : call s.persistentStorage.internalStore with ⟨b, _ | _⟩ <;> rw [h] at hb <;>
    exact keeps_withStore hb

variable (L : LawfulStorage σ)

@[spec] theorem author_spec (s₀ : SafetyRules σ) :
    ⦃fun s => ⌜s = s₀⌝⦄ storage (PersistentSafetyStorage.author L.backend)
    ⦃post⟨fun _ s => ⌜Keeps L.view s₀ s⌝, fun _ s => ⌜Keeps L.view s₀ s⌝⟩⦄ :=
  storage_backend_spec L.lawful.getAuthor_view s₀

@[spec] theorem waypoint_spec (s₀ : SafetyRules σ) :
    ⦃fun s => ⌜s = s₀⌝⦄ storage (PersistentSafetyStorage.waypoint L.backend)
    ⦃post⟨fun _ s => ⌜Keeps L.view s₀ s⌝, fun _ s => ⌜Keeps L.view s₀ s⌝⟩⦄ :=
  storage_backend_spec L.lawful.getWaypoint_view s₀

@[spec] theorem setWaypoint_spec (w : Waypoint) (s₀ : SafetyRules σ) :
    ⦃fun s => ⌜s = s₀⌝⦄ storage (PersistentSafetyStorage.setWaypoint L.backend w)
    ⦃post⟨fun _ s => ⌜Keeps L.view s₀ s⌝, fun _ s => ⌜Keeps L.view s₀ s⌝⟩⦄ :=
  storage_backend_spec (fun b => L.lawful.setWaypoint_view b w) s₀

@[spec] theorem consensusKeyForVersion_spec (k : Ed25519PublicKey) (s₀ : SafetyRules σ) :
    ⦃fun s => ⌜s = s₀⌝⦄ storage (PersistentSafetyStorage.consensusKeyForVersion L.backend k)
    ⦃post⟨fun _ s => ⌜Keeps L.view s₀ s⌝, fun _ s => ⌜Keeps L.view s₀ s⌝⟩⦄ :=
  storage_backend_spec (fun b => L.lawful.export_view b k) s₀

/-- Signing, with a held key or through the storage, keeps the stored data. -/
@[spec] theorem signerSign_spec (signer : ConfigurableValidatorSigner) (m : SigningMessage)
    (s₀ : SafetyRules σ) :
    ⦃fun s => ⌜s = s₀⌝⦄ storage (signer.sign env L.backend m)
    ⦃post⟨fun _ s => ⌜Keeps L.view s₀ s⌝, fun _ s => ⌜Keeps L.view s₀ s⌝⟩⦄ := by
  cases signer with
  | signer author key =>
    rw [triple_iff]
    rintro s rfl
    exact Keeps.refl s
  | handle author k =>
    exact storage_backend_spec (fun b => L.lawful.sign_view b k m) s₀

/-- A read keeps the stored data, and from a coherent state it returns it. -/
@[spec] theorem safetyData_spec (s₀ : SafetyRules σ) :
    ⦃fun s => ⌜s = s₀⌝⦄ storage (PersistentSafetyStorage.safetyData L.backend)
    ⦃post⟨fun d s => ⌜Keeps L.view s₀ s ∧ (Coherent L.view s₀ → d = stored L.view s₀)⌝,
      fun _ s => ⌜Keeps L.view s₀ s⌝⟩⦄ := by
  rw [triple_iff]
  rintro s rfl
  have hget := L.lawful.get_ok s.persistentStorage.internalStore
  have hview := L.lawful.get_view s.persistentStorage.internalStore
  rw [storage_run]
  cases hen : s.persistentStorage.enableCachedSafetyData with
  | false =>
    -- caching off: a plain backend read
    simp only [PersistentSafetyStorage.safetyData, hen, Bool.not_false, ↓reduceIte,
      PersistentSafetyStorage.backend]
    rcases h : L.backend.getSafetyData s.persistentStorage.internalStore with ⟨b, _ | d⟩ <;>
      rw [h] at hview
    · exact keeps_withStore hview
    · exact ⟨keeps_withStore hview, fun _ => hget b d h⟩
  | true =>
    cases hcache : s.persistentStorage.cachedSafetyData with
    | none =>
      -- nothing cached: the read goes to the backend and fills the cache
      simp only [PersistentSafetyStorage.safetyData, hen, hcache, Bool.not_true,
        Bool.false_eq_true, ↓reduceIte]
      rcases h : L.backend.getSafetyData s.persistentStorage.internalStore with ⟨b, _ | d⟩ <;>
        rw [h] at hview
      · exact ⟨fun _ => Or.inl rfl, hview⟩
      · have hdv : d = L.view b := (hget b d h).trans hview.symm
        exact ⟨⟨fun _ => Or.inr (by rw [hdv]; rfl), hview⟩, fun _ => hdv.trans hview⟩
    | some cached =>
      -- the cached copy is returned, which coherence says is the stored data
      simp only [PersistentSafetyStorage.safetyData, hen, hcache, Bool.not_true,
        Bool.false_eq_true, ↓reduceIte]
      refine ⟨Keeps.refl s, fun hc => ?_⟩
      rcases hc with hc | hc <;> rw [hcache] at hc
      · cases hc
      · exact Option.some.inj hc

/-- A successful write stores its argument and caches it; a failed one leaves the
stored data and empties the cache. Either way the cache is coherent. -/
@[spec] theorem setSafetyData_spec (d : SafetyData) (s₀ : SafetyRules σ) :
    ⦃fun s => ⌜s = s₀⌝⦄ storage (PersistentSafetyStorage.setSafetyData L.backend d)
    ⦃post⟨fun _ s => ⌜Kept L.view d s⌝, fun _ s => ⌜Kept L.view (stored L.view s₀) s⌝⟩⦄ := by
  rw [triple_iff]
  rintro s rfl
  rw [storage_run]
  simp only [PersistentSafetyStorage.setSafetyData]
  rcases h : L.backend.setSafetyData s.persistentStorage.internalStore d with ⟨b, _ | ⟨⟩⟩
  · exact ⟨Or.inl rfl, L.lawful.set_error _ b d _ h⟩
  · have hv := L.lawful.set_ok _ b d h
    exact ⟨Or.inr (by rw [PersistentSafetyStorage.stored, hv]), hv⟩

end SafetyRules

end Dijets.Consensus
