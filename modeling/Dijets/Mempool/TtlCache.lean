import Dijets.Lib.HashMap
import Dijets.Lib.SortedMap

/-!
# The mempool's `TtlCache`

`TtlCache` keeps values under keys with an expiration instant: `data` maps each key to its
value and its instant, and `ttl_index` maps instants back to keys, so that `gc` can take the
expired keys in order and `insert` can evict the entry that expires first when the cache is
full. The mempool keeps its sequence-number and metrics caches so, with the instants read from
`SystemTime::now()` plus a fixed timeout.

The index is keyed by the instant alone. Two inserts that read the same clock value compute the
same instant, and the second overwrites the first's index entry: the first key stays in `data`
with no entry of its own in the index (`equal_clock_readings_orphan`). Such a key is never
collected by `gc`, and a later `remove` of it takes out the entry of the key that overwrote it.

What does hold from every reachable state, whatever the clock reads (`inv_run`): every entry
of the index names a key of `data` whose instant it is, and `data` never holds more than
`capacity` entries. The second rests on the first: a full cache always has an index entry to
evict, because the last insert left one. Under readings that strictly increase, the index is
exactly the inverse of `data`'s instants, and `gc` removes exactly the expired entries
(`inStep_run`).

Instants (`SystemTime`) and durations are counts of nanoseconds; an instant has no last value,
so `checked_add` always succeeds.

## Main definitions

* `TtlCache.insert`, `TtlCache.remove`, `TtlCache.get`, `TtlCache.gc` — the operations.
* `TtlCache.Inv` — the invariant of every reachable state.
* `TtlCache.InStep` — the two maps in step.
* `TtlCacheOp.run` — a run of calls from `TtlCache::new`.

## Main results

* `TtlCacheOp.inv_run` — the invariant, with the capacity bound, over every run.
* `TtlCacheOp.equal_clock_readings_orphan` — two inserts at one clock reading leave a key that
  the index and `gc` have lost.
* `TtlCacheOp.inStep_run` — with strictly increasing readings, the index is the inverse of
  `data` and `gc(t)` removes exactly the entries whose instant is below `t`.
-/

set_option autoImplicit false

namespace Dijets.Mempool

open Dijets.Lib

/-- `ValueInfo`: a value and the instant it expires. -/
structure ValueInfo (V : Type) where
  value : V
  ttl : ℕ
deriving DecidableEq, Repr

/-- `TtlCache`: `data` is the `HashMap` of values, `ttl_index` the `BTreeMap` from expiration
instants to keys. -/
structure TtlCache (K V : Type) where
  capacity : ℕ
  defaultTimeout : ℕ
  data : List (K × ValueInfo V)
  ttlIndex : List (ℕ × K)
deriving DecidableEq, Repr

namespace TtlCache

variable {K V : Type} [DecidableEq K]

def new (capacity defaultTimeout : ℕ) : TtlCache K V := ⟨capacity, defaultTimeout, [], []⟩

def get (c : TtlCache K V) (key : K) : Option V := (HashMap.get? key c.data).map ValueInfo.value

/-- `SystemTime::checked_add`. -/
def checkedAdd (t d : ℕ) : Option ℕ := some (t + d)

/-- `TtlCache::insert`, with `now` the reading of `SystemTime::now()`. -/
def insert (c : TtlCache K V) (key : K) (value : V) (now : ℕ) : TtlCache K V :=
  -- Remove old entry if it exists.
  let c := match HashMap.get? key c.data with
    | some info => { c with ttlIndex := SortedMap.erase info.ttl c.ttlIndex }
    | none =>
      -- Remove oldest entry if cache is still full.
      if c.data.length = c.capacity then
        match c.ttlIndex.head?.map Prod.fst with
        | some tst =>
          let removed := SortedMap.get? tst c.ttlIndex
          let c := { c with ttlIndex := SortedMap.erase tst c.ttlIndex }
          match removed with
          | some key => { c with data := HashMap.erase key c.data }
          | none => c
        | none => c
      else c
  -- Insert the new transaction.
  match checkedAdd now c.defaultTimeout with
  | some expirationTime =>
    { c with ttlIndex := SortedMap.insert expirationTime key c.ttlIndex,
             data := HashMap.insert key ⟨value, expirationTime⟩ c.data }
  | none => c

/-- `TtlCache::remove`: the key's value, if it had one, and the cache without it. -/
def remove (c : TtlCache K V) (key : K) : Option V × TtlCache K V :=
  match HashMap.get? key c.data with
  | some info =>
    (some info.value,
      { c with data := HashMap.erase key c.data, ttlIndex := SortedMap.erase info.ttl c.ttlIndex })
  | none => (none, c)

/-- `TtlCache::gc`: `split_off(&gc_time)` leaves the instants below `gc_time` in `ttl_index`
and returns the others as `active`; the keys of the first are removed from `data`, and
`active` becomes the index. -/
def gc (c : TtlCache K V) (gcTime : ℕ) : TtlCache K V :=
  let active := c.ttlIndex.filter fun e => gcTime ≤ e.1
  let expired := c.ttlIndex.filter fun e => e.1 < gcTime
  { c with data := (expired.map Prod.snd).foldl (fun data key => HashMap.erase key data) c.data,
           ttlIndex := active }

/-! ## One lemma for each path through an operation -/

variable {c : TtlCache K V} {key : K} {value : V} {now : ℕ}

/-- `insert` of a key the cache holds: its old instant leaves the index. -/
theorem insert_of_get?_some {info : ValueInfo V} (h : HashMap.get? key c.data = some info) :
    c.insert key value now =
      { c with ttlIndex := SortedMap.insert (now + c.defaultTimeout) key (SortedMap.erase info.ttl c.ttlIndex),
               data := HashMap.insert key ⟨value, now + c.defaultTimeout⟩ c.data } := by
  unfold insert
  rw [h]
  rfl

/-- `insert` of a new key into a cache that is not full. -/
theorem insert_of_not_full (h : HashMap.get? key c.data = none) (hfull : c.data.length ≠ c.capacity) :
    c.insert key value now =
      { c with ttlIndex := SortedMap.insert (now + c.defaultTimeout) key c.ttlIndex,
               data := HashMap.insert key ⟨value, now + c.defaultTimeout⟩ c.data } := by
  unfold insert
  rw [h]
  dsimp only
  rw [if_neg hfull]
  rfl

/-- `insert` of a new key into a full cache: the first entry of the index is evicted. -/
theorem insert_of_full {tst : ℕ} {oldest : K} {rest : List (ℕ × K)}
    (h : HashMap.get? key c.data = none) (hfull : c.data.length = c.capacity)
    (hidx : c.ttlIndex = (tst, oldest) :: rest) :
    c.insert key value now =
      { c with ttlIndex := SortedMap.insert (now + c.defaultTimeout) key (SortedMap.erase tst c.ttlIndex),
               data := HashMap.insert key ⟨value, now + c.defaultTimeout⟩ (HashMap.erase oldest c.data) } := by
  have hhead : c.ttlIndex.head?.map Prod.fst = some tst := by
    rw [hidx]
    rfl
  have hget : SortedMap.get? tst c.ttlIndex = some oldest := by
    rw [hidx, SortedMap.get?_cons, if_pos rfl]
  unfold insert
  rw [h]
  dsimp only
  rw [if_pos hfull, hhead]
  dsimp only
  rw [hget]
  rfl

/-- `insert` of a new key into a full cache with an empty index: nothing is evicted. -/
theorem insert_of_full_nil (h : HashMap.get? key c.data = none) (hfull : c.data.length = c.capacity)
    (hidx : c.ttlIndex = []) :
    c.insert key value now =
      { c with ttlIndex := SortedMap.insert (now + c.defaultTimeout) key c.ttlIndex,
               data := HashMap.insert key ⟨value, now + c.defaultTimeout⟩ c.data } := by
  have hhead : c.ttlIndex.head?.map Prod.fst = none := by
    rw [hidx]
    rfl
  unfold insert
  rw [h]
  dsimp only
  rw [if_pos hfull, hhead]
  rfl

theorem remove_of_get?_some {info : ValueInfo V} (h : HashMap.get? key c.data = some info) :
    c.remove key =
      (some info.value,
        { c with data := HashMap.erase key c.data, ttlIndex := SortedMap.erase info.ttl c.ttlIndex }) := by
  unfold remove
  rw [h]

theorem remove_of_get?_none (h : HashMap.get? key c.data = none) : c.remove key = (none, c) := by
  unfold remove
  rw [h]

theorem gc_data (gcTime : ℕ) :
    (c.gc gcTime).data =
      ((c.ttlIndex.filter fun e => e.1 < gcTime).map Prod.snd).foldl
        (fun data key => HashMap.erase key data) c.data := rfl

theorem gc_ttlIndex (gcTime : ℕ) : (c.gc gcTime).ttlIndex = c.ttlIndex.filter fun e => gcTime ≤ e.1 := rfl

@[simp] theorem gc_capacity (gcTime : ℕ) : (c.gc gcTime).capacity = c.capacity := rfl

@[simp] theorem gc_defaultTimeout (gcTime : ℕ) : (c.gc gcTime).defaultTimeout = c.defaultTimeout := rfl

/-- Every path through `insert` ends with the key at its new instant in both maps, on top of a
cache that has lost at most an old entry of each. -/
theorem insert_eq_exists :
    ∃ idx data, c.insert key value now =
      { c with ttlIndex := SortedMap.insert (now + c.defaultTimeout) key idx,
               data := HashMap.insert key ⟨value, now + c.defaultTimeout⟩ data } ∧
      ∀ k info, HashMap.get? k data = some info → HashMap.get? k c.data = some info := by
  cases hkey : HashMap.get? key c.data with
  | some info => exact ⟨_, _, insert_of_get?_some hkey, fun _ _ h => h⟩
  | none =>
    by_cases hfull : c.data.length = c.capacity
    · cases hidx : c.ttlIndex with
      | nil => exact ⟨_, _, insert_of_full_nil hkey hfull hidx, fun _ _ h => h⟩
      | cons e rest =>
        refine ⟨_, _, insert_of_full hkey hfull hidx, fun k info h => ?_⟩
        rw [HashMap.get?_erase] at h
        split_ifs at h
        exact h
    · exact ⟨_, _, insert_of_not_full hkey hfull, fun _ _ h => h⟩

@[simp] theorem insert_capacity : (c.insert key value now).capacity = c.capacity := by
  obtain ⟨idx, data, heq, -⟩ := @insert_eq_exists K V _ c key value now
  rw [heq]

@[simp] theorem insert_defaultTimeout : (c.insert key value now).defaultTimeout = c.defaultTimeout := by
  obtain ⟨idx, data, heq, -⟩ := @insert_eq_exists K V _ c key value now
  rw [heq]

/-- After `insert`, a key has the new entry, or is another key with an entry it had. -/
theorem get?_insert_data {k : K} {info : ValueInfo V} (h : HashMap.get? k (c.insert key value now).data = some info) :
    (k = key ∧ info = ⟨value, now + c.defaultTimeout⟩) ∨ (k ≠ key ∧ HashMap.get? k c.data = some info) := by
  obtain ⟨idx, data, heq, hdata⟩ := @insert_eq_exists K V _ c key value now
  rw [heq, HashMap.get?_insert] at h
  split_ifs at h with hk
  · exact Or.inl ⟨hk, (Option.some.inj h).symm⟩
  · exact Or.inr ⟨hk, hdata k info h⟩

@[simp] theorem remove_capacity : (c.remove key).2.capacity = c.capacity := by
  cases hkey : HashMap.get? key c.data with
  | some info => rw [remove_of_get?_some hkey]
  | none => rw [remove_of_get?_none hkey]

@[simp] theorem remove_defaultTimeout : (c.remove key).2.defaultTimeout = c.defaultTimeout := by
  cases hkey : HashMap.get? key c.data with
  | some info => rw [remove_of_get?_some hkey]
  | none => rw [remove_of_get?_none hkey]

theorem get?_remove_data {k : K} {info : ValueInfo V} (h : HashMap.get? k (c.remove key).2.data = some info) :
    HashMap.get? k c.data = some info := by
  cases hkey : HashMap.get? key c.data with
  | some info' =>
    rw [remove_of_get?_some hkey, HashMap.get?_erase] at h
    split_ifs at h
    exact h
  | none =>
    rw [remove_of_get?_none hkey] at h
    exact h

theorem get?_gc_data {k : K} {info : ValueInfo V} {gcTime : ℕ} (h : HashMap.get? k (c.gc gcTime).data = some info) :
    HashMap.get? k c.data = some info := by
  rw [gc_data, HashMap.get?_foldl_erase] at h
  split_ifs at h
  exact h

/-! ## The invariant of every reachable state -/

/-- What holds of every cache the operations reach from `new` with a capacity of at least one,
whatever the clock reads: the keys of `data` are distinct and the index is sorted (as a
`HashMap` and a `BTreeMap` keep them), every entry of the index names a key of `data` whose
instant it is, `data` holds at most `capacity` entries, and a full cache has an entry in the
index to evict. -/
structure Inv (c : TtlCache K V) : Prop where
  keysNodup : HashMap.KeysNodup c.data
  sorted : SortedMap.Sorted c.ttlIndex
  index_sound : ∀ t k, SortedMap.get? t c.ttlIndex = some k →
    ∃ info, HashMap.get? k c.data = some info ∧ info.ttl = t
  length_le : c.data.length ≤ c.capacity
  full_ne_nil : c.data.length = c.capacity → c.ttlIndex ≠ []

theorem inv_new {capacity : ℕ} (hcap : 1 ≤ capacity) (defaultTimeout : ℕ) :
    (new capacity defaultTimeout : TtlCache K V).Inv where
  keysNodup := HashMap.KeysNodup.nil
  sorted := SortedMap.sorted_nil
  index_sound t k h := by cases h
  length_le := Nat.zero_le _
  full_ne_nil h := absurd h (show (0 : ℕ) ≠ capacity by omega)

/-- An entry of the index at another instant than a key's names another key. -/
theorem Inv.ne_of_get? (h : c.Inv) {t : ℕ} {k : K} (ht : SortedMap.get? t c.ttlIndex = some k)
    {info : ValueInfo V} (hkey : HashMap.get? key c.data = some info) (hne : t ≠ info.ttl) : k ≠ key := by
  rintro rfl
  obtain ⟨info', hinfo', httl⟩ := h.index_sound t k ht
  rw [hkey, Option.some.injEq] at hinfo'
  exact hne (by rw [← httl, hinfo'])

/-- An entry of the index names a key that `data` holds. -/
theorem Inv.ne_of_get?_none (h : c.Inv) {t : ℕ} {k : K} (ht : SortedMap.get? t c.ttlIndex = some k)
    (hkey : HashMap.get? key c.data = none) : k ≠ key := by
  rintro rfl
  obtain ⟨info, hinfo, -⟩ := h.index_sound t k ht
  rw [hkey] at hinfo
  cases hinfo

/-- The last step of `insert` keeps the index sound: the new entry names the key at its new
instant, and the entries kept under it name other keys. -/
theorem indexSound_insert {idx : List (ℕ × K)} {data : List (K × ValueInfo V)} (T : ℕ)
    (hsound : ∀ t k, SortedMap.get? t idx = some k →
      k ≠ key ∧ ∃ info, HashMap.get? k data = some info ∧ info.ttl = t) :
    ∀ t k, SortedMap.get? t (SortedMap.insert T key idx) = some k →
      ∃ info, HashMap.get? k (HashMap.insert key ⟨value, T⟩ data) = some info ∧ info.ttl = t := by
  intro t k ht
  rcases Iff.mp SortedMap.get?_insert_eq_some_iff ht with ⟨rfl, rfl⟩ | ⟨-, ht⟩
  · exact ⟨_, HashMap.get?_insert_self, rfl⟩
  · obtain ⟨hne, info, hinfo, httl⟩ := hsound t k ht
    exact ⟨info, by rw [HashMap.get?_insert_ne hne]; exact hinfo, httl⟩

/-- **`insert` keeps the invariant**: a key it holds gives up its old instant, a new key in a
full cache evicts the key of the first instant, which `data` holds, and a new key in a cache
that is not full has room. -/
theorem Inv.insert (h : c.Inv) (key : K) (value : V) (now : ℕ) : (c.insert key value now).Inv := by
  cases hkey : HashMap.get? key c.data with
  | some info =>
    have hmem := HashMap.mem_keys_of_get? hkey
    rw [insert_of_get?_some hkey]
    refine ⟨h.keysNodup.insert, SortedMap.sorted_insert (SortedMap.sorted_erase h.sorted),
      indexSound_insert _ fun t k ht => ?_, ?_, fun _ => SortedMap.insert_ne_nil⟩
    · obtain ⟨htt, ht⟩ := Iff.mp (SortedMap.get?_erase_eq_some_iff h.sorted) ht
      exact ⟨h.ne_of_get? ht hkey htt, h.index_sound t k ht⟩
    · dsimp only
      rw [HashMap.length_insert h.keysNodup, if_pos hmem]
      exact h.length_le
  | none =>
    have hnot : key ∉ HashMap.keys c.data := Iff.mp HashMap.get?_eq_none_iff hkey
    by_cases hfull : c.data.length = c.capacity
    · -- the index is not empty, and its first entry names a key of `data`
      obtain ⟨⟨tst, oldest⟩, rest, hidx⟩ := List.exists_cons_of_ne_nil (h.full_ne_nil hfull)
      have hold : SortedMap.get? tst c.ttlIndex = some oldest := by
        rw [hidx, SortedMap.get?_cons, if_pos rfl]
      obtain ⟨info, hinfo, httl⟩ := h.index_sound tst oldest hold
      have hlen := HashMap.length_erase_add_one h.keysNodup (HashMap.mem_keys_of_get? hinfo)
      rw [insert_of_full hkey hfull hidx]
      refine ⟨h.keysNodup.erase.insert, SortedMap.sorted_insert (SortedMap.sorted_erase h.sorted),
        indexSound_insert _ fun t k ht => ?_, ?_, fun _ => SortedMap.insert_ne_nil⟩
      · obtain ⟨htt, ht⟩ := Iff.mp (SortedMap.get?_erase_eq_some_iff h.sorted) ht
        obtain ⟨info', hinfo', httl'⟩ := h.index_sound t k ht
        have hk : k ≠ oldest := h.ne_of_get? ht hinfo (httl ▸ htt)
        exact ⟨h.ne_of_get?_none ht hkey, info', by rw [HashMap.get?_erase, if_neg hk]; exact hinfo', httl'⟩
      · dsimp only
        rw [HashMap.length_insert h.keysNodup.erase, if_neg fun hm => hnot (Iff.mp HashMap.mem_keys_erase hm).1]
        omega
    · rw [insert_of_not_full hkey hfull]
      refine ⟨h.keysNodup.insert, SortedMap.sorted_insert h.sorted,
        indexSound_insert _ fun t k ht => ⟨h.ne_of_get?_none ht hkey, h.index_sound t k ht⟩, ?_,
        fun _ => SortedMap.insert_ne_nil⟩
      dsimp only
      rw [HashMap.length_insert h.keysNodup, if_neg hnot]
      have := h.length_le
      omega

/-- **`remove` keeps the invariant**: the key's instant leaves the index with it. -/
theorem Inv.remove (h : c.Inv) (key : K) : (c.remove key).2.Inv := by
  cases hkey : HashMap.get? key c.data with
  | some info =>
    have hlen := HashMap.length_erase_add_one h.keysNodup (HashMap.mem_keys_of_get? hkey)
    rw [remove_of_get?_some hkey]
    refine ⟨h.keysNodup.erase, SortedMap.sorted_erase h.sorted, fun t k ht => ?_, ?_, fun hfull => ?_⟩
    · obtain ⟨htt, ht⟩ := Iff.mp (SortedMap.get?_erase_eq_some_iff h.sorted) ht
      obtain ⟨info', hinfo', httl'⟩ := h.index_sound t k ht
      exact ⟨info', by rw [HashMap.get?_erase, if_neg (h.ne_of_get? ht hkey htt)]; exact hinfo', httl'⟩
    · exact le_trans HashMap.length_erase_le h.length_le
    · -- a removal from a cache within its capacity leaves it below
      have := h.length_le
      dsimp only at hfull
      omega
  | none =>
    rw [remove_of_get?_none hkey]
    exact h

/-- Under the invariant, an expired entry of the index names a key that `gc` removes, and the
key of an entry it keeps is not among them: an index entry names the key's own instant. -/
theorem Inv.not_mem_expired (h : c.Inv) {gcTime t : ℕ} {k : K} (ht : SortedMap.get? t c.ttlIndex = some k)
    (hle : gcTime ≤ t) : k ∉ (c.ttlIndex.filter fun e => e.1 < gcTime).map Prod.snd := by
  intro hk
  obtain ⟨⟨t', k'⟩, he, rfl⟩ := List.mem_map.mp hk
  obtain ⟨he, hlt⟩ := List.mem_filter.mp he
  have ht' := Iff.mpr (SortedMap.get?_eq_some_iff h.sorted) he
  obtain ⟨info, hinfo, httl⟩ := h.index_sound t k' ht
  obtain ⟨info', hinfo', httl'⟩ := h.index_sound t' k' ht'
  rw [hinfo, Option.some.injEq] at hinfo'
  have : t' < gcTime := of_decide_eq_true hlt
  rw [← httl, hinfo', httl'] at hle
  omega

/-- **`gc` keeps the invariant**: the kept entries of the index name keys that `data` keeps,
and if `data` is still full nothing was collected, so the index is as it was. -/
theorem Inv.gc (h : c.Inv) (gcTime : ℕ) : (c.gc gcTime).Inv := by
  have hsorted : SortedMap.Sorted (c.gc gcTime).ttlIndex := List.Pairwise.sublist List.filter_sublist h.sorted
  refine ⟨h.keysNodup.foldl_erase _, hsorted, fun t k ht => ?_, ?_, fun hfull hnil => ?_⟩
  · rw [gc_ttlIndex, SortedMap.get?_filter_key h.sorted fun t => decide (gcTime ≤ t)] at ht
    split_ifs at ht with hle
    obtain ⟨info, hinfo, httl⟩ := h.index_sound t k ht
    refine ⟨info, ?_, httl⟩
    rw [gc_data, HashMap.get?_foldl_erase, if_neg (h.not_mem_expired ht (of_decide_eq_true hle))]
    exact hinfo
  · exact le_trans (HashMap.length_foldl_erase_le _) h.length_le
  · -- a full cache after `gc` was full before, so its index had a first entry, which expired
    have hle := HashMap.length_foldl_erase_le (m := c.data) ((c.ttlIndex.filter fun e => e.1 < gcTime).map Prod.snd)
    rw [← gc_data] at hle
    have hfull' : c.data.length = c.capacity := by
      have := h.length_le
      rw [gc_capacity] at hfull
      omega
    obtain ⟨⟨t, k⟩, rest, hidx⟩ := List.exists_cons_of_ne_nil (h.full_ne_nil hfull')
    have hmem : (t, k) ∈ c.ttlIndex := by
      rw [hidx]
      exact List.mem_cons_self
    have hlt : t < gcTime := by
      by_contra hge
      have : (t, k) ∈ (c.gc gcTime).ttlIndex := by
        rw [gc_ttlIndex]
        exact List.mem_filter.mpr ⟨hmem, decide_eq_true (by omega)⟩
      rw [hnil] at this
      exact List.not_mem_nil this
    have hexp : k ∈ (c.ttlIndex.filter fun e => e.1 < gcTime).map Prod.snd :=
      List.mem_map.mpr ⟨(t, k), List.mem_filter.mpr ⟨hmem, decide_eq_true hlt⟩, rfl⟩
    obtain ⟨info, hinfo, -⟩ := h.index_sound t k (Iff.mpr (SortedMap.get?_eq_some_iff h.sorted) hmem)
    have hlt' := HashMap.length_foldl_erase_lt hexp (HashMap.mem_keys_of_get? hinfo)
    rw [← gc_data, hfull, gc_capacity] at hlt'
    omega

/-! ## The two maps in step -/

/-- Every key of `data` has its instant mapped back to it; with `Inv.index_sound`, the index is
then exactly the inverse of `data`. -/
def InStep (c : TtlCache K V) : Prop :=
  ∀ k info, HashMap.get? k c.data = some info → SortedMap.get? info.ttl c.ttlIndex = some k

/-- **In step, the index is the inverse of `data`'s instants.** -/
theorem Inv.get?_ttlIndex_iff (h : c.Inv) (hs : c.InStep) {t : ℕ} {k : K} :
    SortedMap.get? t c.ttlIndex = some k ↔ ∃ info, HashMap.get? k c.data = some info ∧ info.ttl = t := by
  constructor
  · exact h.index_sound t k
  · rintro ⟨info, hk, rfl⟩
    exact hs k info hk

/-- In step, two keys of `data` have two instants. -/
theorem InStep.ttl_ne (hs : c.InStep) {k k' : K} {info info' : ValueInfo V}
    (hk : HashMap.get? k c.data = some info) (hk' : HashMap.get? k' c.data = some info') (hne : k ≠ k') :
    info.ttl ≠ info'.ttl := by
  intro heq
  have h₁ := hs k info hk
  rw [heq, hs k' info' hk', Option.some.injEq] at h₁
  exact hne h₁.symm

/-- **`insert` keeps the maps in step** when its instant is later than every instant of `data`:
the new entry overwrites no other key's. -/
theorem Inv.inStep_insert (h : c.Inv) (hs : c.InStep) (key : K) (value : V) (now : ℕ)
    (hfresh : ∀ k info, HashMap.get? k c.data = some info → info.ttl < now + c.defaultTimeout) :
    (c.insert key value now).InStep := by
  intro k info hk'
  rcases get?_insert_data hk' with ⟨hkey, rfl⟩ | ⟨hne, hk⟩
  · obtain ⟨idx, data, heq, -⟩ := @insert_eq_exists K V _ c key value now
    rw [heq, hkey]
    exact SortedMap.get?_insert_self
  · have hT : info.ttl ≠ now + c.defaultTimeout := (hfresh k info hk).ne
    cases hkey : HashMap.get? key c.data with
    | some info' =>
      rw [insert_of_get?_some hkey]
      dsimp only
      rw [SortedMap.get?_insert_ne hT, SortedMap.get?_erase_ne (hs.ttl_ne hk hkey hne)]
      exact hs k info hk
    | none =>
      by_cases hfull : c.data.length = c.capacity
      · obtain ⟨⟨tst, oldest⟩, rest, hidx⟩ := List.exists_cons_of_ne_nil (h.full_ne_nil hfull)
        have hold : SortedMap.get? tst c.ttlIndex = some oldest := by
          rw [hidx, SortedMap.get?_cons, if_pos rfl]
        obtain ⟨info', hinfo', httl'⟩ := h.index_sound tst oldest hold
        rw [insert_of_full hkey hfull hidx] at hk' ⊢
        dsimp only at hk' ⊢
        -- the evicted key is not `k`, which `data` still holds
        rw [HashMap.get?_insert_ne hne, HashMap.get?_erase] at hk'
        split_ifs at hk' with hko
        rw [SortedMap.get?_insert_ne hT, SortedMap.get?_erase_ne (httl' ▸ hs.ttl_ne hk hinfo' hko)]
        exact hs k info hk
      · rw [insert_of_not_full hkey hfull]
        dsimp only
        rw [SortedMap.get?_insert_ne hT]
        exact hs k info hk

/-- `remove` keeps the maps in step. -/
theorem InStep.remove (hs : c.InStep) (key : K) : (c.remove key).2.InStep := by
  intro k info hk
  cases hkey : HashMap.get? key c.data with
  | some info' =>
    rw [remove_of_get?_some hkey] at hk ⊢
    dsimp only at hk ⊢
    rw [HashMap.get?_erase] at hk
    split_ifs at hk with hne
    rw [SortedMap.get?_erase_ne (hs.ttl_ne hk hkey hne)]
    exact hs k info hk
  | none =>
    rw [remove_of_get?_none hkey] at hk ⊢
    exact hs k info hk

/-- **What `gc` removes.** Under the invariant, `gc(t)` removes the keys whose index entry is
below `t`: a key whose instant is mapped back to it leaves exactly when its instant is below
`t`. With the maps in step, that is every key. -/
theorem Inv.get?_gc_data (h : c.Inv) (gcTime : ℕ) {k : K} {info : ValueInfo V}
    (hk : HashMap.get? k c.data = some info) (hidx : SortedMap.get? info.ttl c.ttlIndex = some k) :
    HashMap.get? k (c.gc gcTime).data = if info.ttl < gcTime then none else some info := by
  rw [gc_data, HashMap.get?_foldl_erase]
  split_ifs with hexp hlt hlt
  · rfl
  · exact absurd hexp (h.not_mem_expired hidx (Nat.le_of_not_lt hlt))
  · -- the key's own entry expired, so the key is among those removed
    have hmem := Iff.mp (SortedMap.get?_eq_some_iff h.sorted) hidx
    exact absurd (List.mem_map.mpr ⟨_, List.mem_filter.mpr ⟨hmem, decide_eq_true hlt⟩, rfl⟩) hexp
  · exact hk

theorem InStep.gc (h : c.Inv) (hs : c.InStep) (gcTime : ℕ) : (c.gc gcTime).InStep := by
  intro k info hk
  have hk₀ := get?_gc_data hk
  have hidx := hs k info hk₀
  rw [h.get?_gc_data gcTime hk₀ hidx] at hk
  split_ifs at hk with hlt
  rw [gc_ttlIndex, SortedMap.get?_filter_key h.sorted fun t => decide (gcTime ≤ t),
    if_pos (decide_eq_true (Nat.le_of_not_lt hlt))]
  exact hidx

/-- **`gc(t)` removes exactly the entries whose instant is below `t`**, when the maps are in
step. -/
theorem gc_spec (h : c.Inv) (hs : c.InStep) (gcTime : ℕ) (k : K) :
    HashMap.get? k (c.gc gcTime).data = (HashMap.get? k c.data).filter fun info => gcTime ≤ info.ttl := by
  cases hk : HashMap.get? k c.data with
  | none =>
    cases hk' : HashMap.get? k (c.gc gcTime).data with
    | none => rfl
    | some info => rw [get?_gc_data hk'] at hk; cases hk
  | some info =>
    rw [h.get?_gc_data gcTime hk (hs k info hk), Option.filter_some]
    by_cases hlt : info.ttl < gcTime
    · rw [if_pos hlt, if_neg (by simpa using hlt)]
    · rw [if_neg hlt, if_pos (by simpa using hlt)]

end TtlCache

/-! ## Runs of calls -/

/-- A call on the cache, with the clock reading of an `insert`. -/
inductive TtlCacheOp (K V : Type) where
  | insert (key : K) (value : V) (now : ℕ)
  | remove (key : K)
  | get (key : K)
  | gc (gcTime : ℕ)
deriving DecidableEq, Repr

namespace TtlCacheOp

variable {K V : Type} [DecidableEq K]

/-- One call; `get` reads the cache and leaves it as it is. -/
def apply (c : TtlCache K V) : TtlCacheOp K V → TtlCache K V
  | insert key value now => c.insert key value now
  | remove key => (c.remove key).2
  | get _ => c
  | gc gcTime => c.gc gcTime

/-- The cache a run of calls leaves. -/
def run (c : TtlCache K V) (ops : List (TtlCacheOp K V)) : TtlCache K V := ops.foldl apply c

/-- The clock readings of the run's inserts, in order. -/
def clockReadings : List (TtlCacheOp K V) → List ℕ
  | [] => []
  | insert _ _ now :: ops => now :: clockReadings ops
  | remove _ :: ops => clockReadings ops
  | get _ :: ops => clockReadings ops
  | gc _ :: ops => clockReadings ops

theorem run_cons (c : TtlCache K V) (op : TtlCacheOp K V) (ops : List (TtlCacheOp K V)) :
    run c (op :: ops) = run (apply c op) ops := rfl

theorem inv_apply {c : TtlCache K V} (h : c.Inv) : ∀ op, (apply c op).Inv
  | insert key value now => h.insert key value now
  | remove key => h.remove key
  | get _ => h
  | gc gcTime => h.gc gcTime

theorem inv_run_of {c : TtlCache K V} (h : c.Inv) (ops : List (TtlCacheOp K V)) : (run c ops).Inv := by
  induction ops generalizing c with
  | nil => exact h
  | cons op ops ih => exact ih (inv_apply h op)

/-- **Every run keeps the invariant**, from `TtlCache::new` with a capacity of at least one and
whatever the clock reads. -/
theorem inv_run {capacity : ℕ} (hcap : 1 ≤ capacity) (defaultTimeout : ℕ) (ops : List (TtlCacheOp K V)) :
    (run (TtlCache.new capacity defaultTimeout) ops).Inv :=
  inv_run_of (TtlCache.inv_new hcap defaultTimeout) ops

/-- The maps stay in step over a run whose inserts read strictly increasing clock values, from a
cache whose instants are all below every one of those readings plus the timeout. -/
theorem inStep_run_of {c : TtlCache K V} (h : c.Inv) (hs : c.InStep) (ops : List (TtlCacheOp K V))
    (hclock : (clockReadings ops).Pairwise (· < ·))
    (hfresh : ∀ k info, HashMap.get? k c.data = some info →
      ∀ r ∈ clockReadings ops, info.ttl < r + c.defaultTimeout) :
    (run c ops).InStep := by
  induction ops generalizing c with
  | nil => exact hs
  | cons op ops ih =>
    rw [run_cons]
    cases op with
    | insert key value now =>
      rw [clockReadings, List.pairwise_cons] at hclock
      have hs' := h.inStep_insert hs key value now fun k info hk => hfresh k info hk now List.mem_cons_self
      refine ih (h.insert key value now) hs' hclock.2 fun k info hk r hr => ?_
      -- the new instant is below every later reading plus the timeout; the others were already
      rw [apply, TtlCache.insert_defaultTimeout]
      rcases TtlCache.get?_insert_data hk with ⟨-, rfl⟩ | ⟨-, hk⟩
      · have := hclock.1 r hr
        dsimp only
        omega
      · exact hfresh k info hk r (List.mem_cons_of_mem _ hr)
    | remove key =>
      refine ih (h.remove key) (hs.remove key) hclock fun k info hk r hr => ?_
      rw [apply, TtlCache.remove_defaultTimeout]
      exact hfresh k info (TtlCache.get?_remove_data hk) r hr
    | get key => exact ih h hs hclock hfresh
    | gc gcTime =>
      refine ih (h.gc gcTime) (hs.gc h gcTime) hclock fun k info hk r hr => ?_
      rw [apply, TtlCache.gc_defaultTimeout]
      exact hfresh k info (TtlCache.get?_gc_data hk) r hr

/-- **With strictly increasing clock readings the two maps stay in step** over every run from
`TtlCache::new`: the index is exactly the inverse of `data`'s instants, and `gc(t)` removes
exactly the entries whose instant is below `t`. -/
theorem inStep_run {capacity : ℕ} (hcap : 1 ≤ capacity) (defaultTimeout : ℕ) (ops : List (TtlCacheOp K V))
    (hclock : (clockReadings ops).Pairwise (· < ·)) :
    let c := run (TtlCache.new capacity defaultTimeout) ops
    (∀ t k, SortedMap.get? t c.ttlIndex = some k ↔
      ∃ info, HashMap.get? k c.data = some info ∧ info.ttl = t) ∧
    ∀ gcTime k, HashMap.get? k (c.gc gcTime).data =
      (HashMap.get? k c.data).filter fun info => gcTime ≤ info.ttl := by
  intro c
  have h : c.Inv := inv_run hcap defaultTimeout ops
  have hs : c.InStep := inStep_run_of (TtlCache.inv_new hcap defaultTimeout)
    (fun _ _ h => by cases h) ops hclock fun _ _ h => by cases h
  exact ⟨fun _ _ => h.get?_ttlIndex_iff hs, fun gcTime k => TtlCache.gc_spec h hs gcTime k⟩

/-- Three inserts at rising readings into a cache of capacity 2, with a collection between them
that takes the first key. -/
theorem inStep_run_rising :
    let c : TtlCache ℕ Unit := run (TtlCache.new 2 100) [insert 1 () 0, insert 2 () 5, gc 103, insert 3 () 9]
    (∀ t k, SortedMap.get? t c.ttlIndex = some k ↔
      ∃ info, HashMap.get? k c.data = some info ∧ info.ttl = t) ∧
    ∀ gcTime k, HashMap.get? k (c.gc gcTime).data =
      (HashMap.get? k c.data).filter fun info => gcTime ≤ info.ttl :=
  inStep_run (by decide) 100 _ (by decide)

/-- **Two inserts at one clock reading lose a key.** In a cache of capacity 2 with a timeout of
100, keys 1 and 2 are inserted at the reading 0; both get the instant 100, and the index keeps
2 there. Key 1 is left with no entry of its own: `gc(101)` does not collect it although its
instant is below 101, and `remove(1)` takes out key 2's entry, which leaves key 2 without one
as well. -/
theorem equal_clock_readings_orphan :
    ∃ c : TtlCache ℕ Unit, run (TtlCache.new 2 100) [insert 1 () 0, insert 2 () 0] = c ∧
      HashMap.get? 1 c.data = some ⟨(), 100⟩ ∧ SortedMap.get? 100 c.ttlIndex = some 2 ∧
      HashMap.get? 1 (c.gc 101).data = some ⟨(), 100⟩ ∧
      HashMap.get? 2 (c.remove 1).2.data = some ⟨(), 100⟩ ∧ (c.remove 1).2.ttlIndex = [] :=
  ⟨_, rfl, by decide⟩

end TtlCacheOp

end Dijets.Mempool
