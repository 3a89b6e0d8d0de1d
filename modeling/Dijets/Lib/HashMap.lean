import Mathlib

/-!
# Hash maps as association lists

A `HashMap` is read here through its lookups and through a fold over its values
whose result does not depend on the order of the values (a maximum). Neither
depends on the order of its entries, which the hash function decides, so a map is
an association list in which each key stands at most once (`KeysNodup`), in any
order. `insert` replaces a key's entry; `modify` is `entry(k).or_insert_with(d)`
followed by an update of the value in place; `extend` inserts the entries of a
second map one by one, so that its values win; `erase` is `remove`.

## Main results

* `get?_insert`, `get?_modify`, `get?_extend`, `get?_erase`, `get?_foldl_erase` — lookups
  after each operation.
* `KeysNodup.insert`, `KeysNodup.modify`, `KeysNodup.extend`, `KeysNodup.erase` — the keys
  stay distinct.
* `length_insert`, `length_erase_add_one` — `len` after an insert or a removal.
* `flatMap_snd_perm` — the values of a map of lists are those of one key and the others'.
* `foldl_max_values` — a maximum over the values is a `Finset.sup` over the keys.
-/

set_option autoImplicit false

namespace Dijets.Lib.HashMap

variable {κ β : Type*}

/-- The keys of a map. -/
def keys (m : List (κ × β)) : List κ := m.map Prod.fst

/-- Each key stands at most once. -/
def KeysNodup (m : List (κ × β)) : Prop := (keys m).Nodup

@[simp] theorem keys_nil : keys ([] : List (κ × β)) = [] := rfl

@[simp] theorem keys_cons {e : κ × β} {m : List (κ × β)} : keys (e :: m) = e.1 :: keys m := rfl

theorem KeysNodup.nil : KeysNodup ([] : List (κ × β)) := List.nodup_nil

variable [DecidableEq κ]

/-- `HashMap::get`. -/
def get? (k : κ) : List (κ × β) → Option β
  | [] => none
  | (k', v) :: rest => if k = k' then some v else get? k rest

/-- `HashMap::insert`: the entry of `k` is replaced. -/
def insert (k : κ) (v : β) (m : List (κ × β)) : List (κ × β) :=
  (k, v) :: m.filter (fun e => e.1 ≠ k)

/-- `entry(k).or_insert_with(|| d)`, then `f` applied to the value in place. -/
def modify (k : κ) (d : β) (f : β → β) (m : List (κ × β)) : List (κ × β) :=
  insert k (f ((get? k m).getD d)) m

/-- `HashMap::extend`: every entry of `m'` inserted into `m`. -/
def extend (m m' : List (κ × β)) : List (κ × β) :=
  m'.foldl (fun acc e => insert e.1 e.2 acc) m

/-- `HashMap::remove`: the entry of `k` goes. -/
def erase (k : κ) (m : List (κ × β)) : List (κ × β) := m.filter (fun e => e.1 ≠ k)

variable {k k' : κ} {v : β} {m m' : List (κ × β)}

@[simp] theorem get?_nil : get? k ([] : List (κ × β)) = none := rfl

theorem get?_cons {e : κ × β} : get? k (e :: m) = if k = e.1 then some e.2 else get? k m := rfl

theorem get?_eq_none_iff : get? k m = none ↔ k ∉ keys m := by
  induction m with
  | nil => simp
  | cons e m ih =>
    rw [get?_cons, keys_cons, List.mem_cons]
    split_ifs with h
    · simp [h]
    · simp [h, ih]

theorem mem_keys_of_get? (h : get? k m = some v) : k ∈ keys m := by
  by_contra hk
  rw [← get?_eq_none_iff] at hk
  rw [hk] at h
  cases h

theorem get?_filter_ne (hne : k' ≠ k) :
    get? k' (m.filter (fun e => e.1 ≠ k)) = get? k' m := by
  induction m with
  | nil => rfl
  | cons e m ih =>
    by_cases he : e.1 = k
    · have hk' : k' ≠ e.1 := he ▸ hne
      rw [List.filter_cons_of_neg (by simpa using he), ih, get?_cons, if_neg hk']
    · rw [List.filter_cons_of_pos (by simpa using he), get?_cons, get?_cons, ih]

theorem get?_insert : get? k' (insert k v m) = if k' = k then some v else get? k' m := by
  rw [insert, get?_cons]
  split_ifs with h
  · rfl
  · exact get?_filter_ne h

@[simp] theorem get?_insert_self : get? k (insert k v m) = some v := by
  simp [get?_insert]

theorem get?_insert_ne (hne : k' ≠ k) : get? k' (insert k v m) = get? k' m := by
  rw [get?_insert, if_neg hne]

theorem get?_modify {d : β} {f : β → β} :
    get? k' (modify k d f m) = if k' = k then some (f ((get? k m).getD d)) else get? k' m :=
  get?_insert

theorem mem_keys_filter_ne : k' ∈ keys (m.filter (fun e => e.1 ≠ k)) ↔ k' ∈ keys m ∧ k' ≠ k := by
  simp only [keys, List.mem_map, List.mem_filter, decide_eq_true_eq]
  constructor
  · rintro ⟨e, ⟨he, hne⟩, rfl⟩
    exact ⟨⟨e, he, rfl⟩, hne⟩
  · rintro ⟨⟨e, he, rfl⟩, hne⟩
    exact ⟨e, ⟨he, hne⟩, rfl⟩

theorem mem_keys_insert : k' ∈ keys (insert k v m) ↔ k' = k ∨ k' ∈ keys m := by
  rw [insert, keys_cons, List.mem_cons, mem_keys_filter_ne]
  by_cases h : k' = k <;> simp [h]

theorem KeysNodup.insert (hm : KeysNodup m) : KeysNodup (HashMap.insert k v m) := by
  rw [KeysNodup, HashMap.insert, keys_cons, List.nodup_cons]
  refine ⟨fun h => (Iff.mp mem_keys_filter_ne h).2 rfl, ?_⟩
  exact (hm.sublist (List.Sublist.map _ List.filter_sublist))

theorem KeysNodup.modify {d : β} {f : β → β} (hm : KeysNodup m) :
    KeysNodup (HashMap.modify k d f m) :=
  hm.insert

theorem KeysNodup.extend (hm : KeysNodup m) : KeysNodup (HashMap.extend m m') := by
  induction m' generalizing m with
  | nil => exact hm
  | cons e m' ih => exact ih hm.insert

theorem mem_keys_extend : k ∈ keys (extend m m') ↔ k ∈ keys m' ∨ k ∈ keys m := by
  induction m' generalizing m with
  | nil => simp [extend]
  | cons e m' ih =>
    rw [extend, List.foldl_cons, ← extend, ih, mem_keys_insert, keys_cons, List.mem_cons]
    tauto

theorem erase_eq_filter : erase k m = m.filter (fun e => e.1 ≠ k) := rfl

theorem insert_eq_cons_erase : insert k v m = (k, v) :: erase k m := rfl

theorem get?_erase : get? k' (erase k m) = if k' = k then none else get? k' m := by
  split_ifs with h
  · subst h
    exact Iff.mpr get?_eq_none_iff fun hk => (Iff.mp mem_keys_filter_ne hk).2 rfl
  · exact get?_filter_ne h

theorem mem_keys_erase : k' ∈ keys (erase k m) ↔ k' ∈ keys m ∧ k' ≠ k := mem_keys_filter_ne

theorem KeysNodup.erase (hm : KeysNodup m) : KeysNodup (HashMap.erase k m) :=
  hm.sublist (List.Sublist.map _ List.filter_sublist)

theorem erase_of_not_mem (hk : k ∉ keys m) : erase k m = m := by
  rw [erase_eq_filter, List.filter_eq_self]
  intro e he
  have hne : e.1 ≠ k := fun h => hk (h ▸ List.mem_map_of_mem he)
  simpa using hne

theorem length_erase_le : (erase k m).length ≤ m.length := List.length_filter_le _ _

/-- What a key looks up is an entry of the map. -/
theorem mem_of_get? (h : get? k m = some v) : (k, v) ∈ m := by
  induction m with
  | nil => cases h
  | cons e m ih =>
    rw [get?_cons] at h
    split_ifs at h with hk
    · cases h
      exact List.mem_cons.mpr (Or.inl (by rw [hk]))
    · exact List.mem_cons_of_mem _ (ih h)

/-- Under distinct keys, an entry of a map is what its key looks up. -/
theorem get?_of_mem (hm : KeysNodup m) {e : κ × β} (he : e ∈ m) : get? e.1 m = some e.2 := by
  induction m with
  | nil => exact absurd he List.not_mem_nil
  | cons e' m ih =>
    rw [KeysNodup, keys_cons, List.nodup_cons] at hm
    rw [get?_cons]
    rcases List.mem_cons.mp he with rfl | he
    · exact if_pos rfl
    · have hne : e.1 ≠ e'.1 := fun h => hm.1 (h ▸ List.mem_map_of_mem he)
      rw [if_neg hne, ih hm.2 he]

/-- The values of a map of lists, flattened, are those of one key and those of the others. -/
theorem flatMap_snd_perm {γ : Type*} {m : List (κ × List γ)} (hm : KeysNodup m) (k : κ) :
    (m.flatMap Prod.snd).Perm ((get? k m).getD [] ++ (m.filter (fun e => e.1 ≠ k)).flatMap Prod.snd) := by
  induction m with
  | nil => simp
  | cons e m ih =>
    rw [KeysNodup, keys_cons, List.nodup_cons] at hm
    rw [get?_cons, List.filter_cons, List.flatMap_cons]
    by_cases hk : k = e.1
    · -- the head holds `k`, and the tail does not
      subst hk
      rw [if_pos rfl, if_neg (by simp), ← erase_eq_filter, erase_of_not_mem hm.1]
      exact .refl _
    · rw [if_neg hk, if_pos (by simpa using Ne.symm hk), List.flatMap_cons]
      exact ((ih hm.2).append_left e.2).trans (List.perm_append_comm_assoc _ _ _)

/-- Removing a present key of a map with distinct keys takes one entry off. -/
theorem length_erase_add_one (hm : KeysNodup m) (hk : k ∈ keys m) : (erase k m).length + 1 = m.length := by
  induction m with
  | nil => exact absurd hk List.not_mem_nil
  | cons e m ih =>
    rw [KeysNodup, keys_cons, List.nodup_cons] at hm
    rw [erase_eq_filter, List.filter_cons]
    by_cases he : e.1 = k
    · -- the head's key is the removed one, and the tail does not hold it
      subst he
      rw [if_neg (by simp), ← erase_eq_filter, erase_of_not_mem hm.1, List.length_cons]
    · have hk' : k ∈ keys m := by
        rcases List.mem_cons.mp hk with h | h
        · exact absurd h.symm he
        · exact h
      rw [if_pos (by simpa using he), List.length_cons, List.length_cons, ← erase_eq_filter, ih hm.2 hk']

/-- An insert adds an entry exactly when the key is new. -/
theorem length_insert (hm : KeysNodup m) :
    (insert k v m).length = if k ∈ keys m then m.length else m.length + 1 := by
  rw [insert_eq_cons_erase, List.length_cons]
  split_ifs with hk
  · have := length_erase_add_one hm hk
    omega
  · rw [erase_of_not_mem hk]

/-- Removing the keys of a list one by one keeps the entries of the other keys. -/
theorem foldl_erase_eq_filter (ks : List κ) (m : List (κ × β)) :
    ks.foldl (fun acc k => erase k acc) m = m.filter (fun e => e.1 ∉ ks) := by
  induction ks generalizing m with
  | nil => simp
  | cons k ks ih =>
    rw [List.foldl_cons, ih, erase_eq_filter, List.filter_filter]
    congr 1
    funext e
    simp only [List.mem_cons, not_or, Bool.decide_and, decide_not]
    exact Bool.and_comm _ _

theorem get?_foldl_erase (ks : List κ) :
    get? k' (ks.foldl (fun acc k => erase k acc) m) = if k' ∈ ks then none else get? k' m := by
  induction ks generalizing m with
  | nil => rfl
  | cons k ks ih =>
    rw [List.foldl_cons, ih, get?_erase]
    by_cases h : k' = k <;> simp [h]

theorem KeysNodup.foldl_erase (hm : KeysNodup m) (ks : List κ) :
    KeysNodup (ks.foldl (fun acc k => HashMap.erase k acc) m) := by
  induction ks generalizing m with
  | nil => exact hm
  | cons k ks ih => exact ih hm.erase

/-- Removing keys never adds entries, and takes at least one off when one of them is present. -/
theorem length_foldl_erase_le (ks : List κ) : (ks.foldl (fun acc k => erase k acc) m).length ≤ m.length := by
  rw [foldl_erase_eq_filter]
  exact List.length_filter_le _ _

theorem length_foldl_erase_lt {ks : List κ} (hk : k ∈ ks) (hm : k ∈ keys m) :
    (ks.foldl (fun acc k => erase k acc) m).length < m.length := by
  rw [foldl_erase_eq_filter]
  refine lt_of_le_of_ne (List.length_filter_le _ _) fun heq => ?_
  obtain ⟨e, he, rfl⟩ := List.mem_map.mp hm
  have := Iff.mp List.length_filter_eq_length_iff heq e he
  simp [hk] at this

/-- After an extend, a key of the second map has its value there. -/
theorem get?_extend (hm' : KeysNodup m') : get? k (extend m m') = (get? k m').or (get? k m) := by
  induction m' generalizing m with
  | nil => simp [extend]
  | cons e m' ih =>
    rw [KeysNodup, keys_cons, List.nodup_cons] at hm'
    rw [extend, List.foldl_cons, ← extend, ih hm'.2, get?_insert, get?_cons]
    by_cases hk : k = e.1
    · -- the key of the head does not come back in the rest
      subst hk
      have hnone : get? e.1 m' = none := get?_eq_none_iff.mpr hm'.1
      simp [hnone]
    · simp [hk]

/-- A maximum over the values of a map with distinct keys is a supremum over its keys. -/
theorem foldl_max_values (f : β → ℕ) (hm : KeysNodup m) (a : ℕ) :
    (m.map Prod.snd).foldl (fun acc v => max acc (f v)) a =
      max a ((keys m).toFinset.sup fun k => ((get? k m).map f).getD 0) := by
  induction m generalizing a with
  | nil => simp
  | cons e m ih =>
    rw [KeysNodup, keys_cons, List.nodup_cons] at hm
    rw [List.map_cons, List.foldl_cons, ih hm.2, keys_cons, List.toFinset_cons,
      Finset.sup_insert, get?_cons, if_pos rfl]
    -- the other keys read the same in the tail as in the whole map
    have hrest : ((keys m).toFinset.sup fun k => ((get? k (e :: m)).map f).getD 0) =
        (keys m).toFinset.sup fun k => ((get? k m).map f).getD 0 := by
      refine Finset.sup_congr rfl fun k hk => ?_
      have hne : k ≠ e.1 := fun h => hm.1 (h ▸ List.mem_toFinset.mp hk)
      rw [get?_cons, if_neg hne]
    rw [hrest]
    simp only [Option.map_some, Option.getD_some, max_assoc]

end Dijets.Lib.HashMap
