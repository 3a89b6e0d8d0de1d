import Dijets.Lib.SortedMap
import Dijets.Net.BitVec
import Dijets.Lib.Outcome
import Mathlib.Order.Bounds.Basic

/-!
# The version negotiation of the network handshake

Two peers exchange a `HandshakeMsg`: their chain and network, and a `BTreeMap` from each
messaging-protocol version they support to the bit vector of application protocols they
run over it. `HandshakeMsg::perform_handshake` checks the chain and the network, and then
looks for the highest version both maps hold, walking its own versions downwards and the
peer's with one reverse iterator shared across the walk.

The version type is a parameter with a linear order: the code only uses the derived order of
`MessagingProtocolVersion`, whose variants are listed from old to new and which has one variant
today.

## Main definitions

* `HandshakeMsg` — a map with its keys ascending, as a `BTreeMap` keeps them.
* `Iter.find` — `Iterator::find`, which consumes the entry it returns.
* `HandshakeMsg.versionLoop`, `HandshakeMsg.performHandshake` — the negotiation.
* `HandshakeMsg.commonVersions` — what the negotiation is for: the versions both maps hold.

## Main results

* `performHandshake_sound` — a negotiated version is common, and its protocols are those both
  peers run over it.
* `performHandshake_of_greatest_mem` — when the peer holds one's own highest version, that is
  the version negotiated.
* `perform_handshake_negotiates` — with the one version of today, the negotiation finds the
  greatest common version exactly, and both sides agree on it.
-/

set_option autoImplicit false

namespace Dijets.Net

open Dijets.Lib

/-! ## The application protocols -/

/-- `ProtocolId`: the application protocols, by their `u8` representation. -/
inductive ProtocolId where
  | consensusRpc
  | consensusDirectSend
  | mempoolDirectSend
  | stateSyncDirectSend
  | discoveryDirectSend
  | healthCheckerRpc
  | consensusDirectSendJSON
deriving DecidableEq, Repr

/-- `ProtocolId as u8`. -/
def ProtocolId.toU8 : ProtocolId → UInt8
  | .consensusRpc => 0
  | .consensusDirectSend => 1
  | .mempoolDirectSend => 2
  | .stateSyncDirectSend => 3
  | .discoveryDirectSend => 4
  | .healthCheckerRpc => 5
  | .consensusDirectSendJSON => 6

/-- `SupportedProtocols`: the protocols a peer runs over one version. -/
structure SupportedProtocols where
  bits : BitVec
deriving DecidableEq, Repr

namespace SupportedProtocols

/-- `SupportedProtocols::intersection`. -/
def intersection (self other : SupportedProtocols) : SupportedProtocols :=
  ⟨self.bits &&& other.bits⟩

/-- `SupportedProtocols::contains`. -/
def contains (self : SupportedProtocols) (protocol : ProtocolId) : Bool :=
  self.bits.isSet protocol.toU8

/-- The intersection runs the protocols both run. -/
@[simp] theorem contains_intersection (a b : SupportedProtocols) (protocol : ProtocolId) :
    (a.intersection b).contains protocol = (a.contains protocol && b.contains protocol) :=
  BitVec.isSet_and _ _ _

theorem intersection_comm (a b : SupportedProtocols) : a.intersection b = b.intersection a := by
  rw [intersection, intersection, BitVec.and_comm]

end SupportedProtocols

/-! ## The handshake message -/

/-- `NetworkId`. -/
inductive NetworkId where
  | validator
  | «public»
  | «private» (name : String)
deriving DecidableEq, Repr

/-- `HandshakeError`: the expected value second. -/
inductive HandshakeError where
  | invalidChainId (received expected : UInt8)
  | invalidNetworkId (received expected : NetworkId)
  | noCommonProtocols
deriving DecidableEq, Repr

/-- `MessagingProtocolVersion`: the versions from old to new, one today. -/
inductive MessagingProtocolVersion where
  | v1
deriving DecidableEq, Repr

instance : Subsingleton MessagingProtocolVersion := ⟨fun a b => by cases a; cases b; rfl⟩

/-- The derived `Ord`, which one variant makes trivial. -/
instance : LinearOrder MessagingProtocolVersion := .ofSubsingleton

/-- `HandshakeMsg` over the version type `V`: the map is its entries in ascending key order,
keys strictly ascending as in a `BTreeMap`. `ChainId` is a `u8` newtype. -/
structure HandshakeMsg (V : Type) [LinearOrder V] where
  supportedProtocols : List (V × SupportedProtocols)
  sorted : SortedMap.Sorted supportedProtocols
  chainId : UInt8
  networkId : NetworkId

/-- `Iterator::find` on an iterator over `entries`: the first entry satisfying `p`, and the
iterator after it. The entries up to the one found, that one included, are consumed; when none
is found the iterator is exhausted. -/
def Iter.find {α : Type} (p : α → Bool) : List α → Option α × List α
  | [] => (none, [])
  | x :: rest => if p x then (some x, rest) else Iter.find p rest

namespace Iter

variable {α : Type} {p : α → Bool}

theorem find_eq_some : ∀ {l rest : List α} {x : α}, find p l = (some x, rest) →
    ∃ pre, l = pre ++ x :: rest ∧ (∀ y ∈ pre, p y = false) ∧ p x = true
  | [], _, _, h => by cases h
  | y :: l, rest, x, h => by
    unfold find at h
    by_cases hy : p y = true
    · -- the head is the one found
      rw [if_pos hy] at h
      cases h
      exact ⟨[], rfl, fun _ h => absurd h List.not_mem_nil, hy⟩
    · rw [if_neg hy] at h
      obtain ⟨pre, rfl, hpre, hx⟩ := find_eq_some h
      refine ⟨y :: pre, rfl, fun z hz => ?_, hx⟩
      rcases List.mem_cons.mp hz with rfl | hz
      · exact Bool.eq_false_iff.mpr hy
      · exact hpre z hz

theorem find_eq_none : ∀ {l rest : List α}, find p l = (none, rest) → ∀ y ∈ l, p y = false
  | [], _, _, _, hy => absurd hy List.not_mem_nil
  | z :: l, rest, h, y, hy => by
    unfold find at h
    by_cases hz : p z = true
    · rw [if_pos hz] at h
      cases h
    · rw [if_neg hz] at h
      rcases List.mem_cons.mp hy with rfl | hy
      · exact Bool.eq_false_iff.mpr hz
      · exact find_eq_none h y hy

end Iter

namespace HandshakeMsg

variable {V : Type} [LinearOrder V]

/-- The versions of a message. -/
def versions (m : HandshakeMsg V) : List V := m.supportedProtocols.map Prod.fst

/-- The loop of `perform_handshake`: `self`'s entries in decreasing order, and the peer's
reverse iterator `inner`, shared by every iteration. Each iteration finds the first remaining
peer entry at or below the current version; the version it returns with. -/
def versionLoop : List (V × SupportedProtocols) → List (V × SupportedProtocols) → Option V
  | [], _ => none
  | (kOuter, _) :: outer, inner =>
    match Iter.find (fun e => decide (e.1 ≤ kOuter)) inner with
    | (none, _) => none
    | (some (kInner, _), inner') =>
      if kInner = kOuter then some kInner else versionLoop outer inner'

/-- `HandshakeMsg::perform_handshake`. -/
def performHandshake (self other : HandshakeMsg V) :
    Outcome HandshakeError (V × SupportedProtocols) :=
  if self.chainId ≠ other.chainId then .err (.invalidChainId other.chainId self.chainId)
  else if self.networkId ≠ other.networkId then
    .err (.invalidNetworkId other.networkId self.networkId)
  else
    match versionLoop self.supportedProtocols.reverse other.supportedProtocols.reverse with
    | none => .err .noCommonProtocols
    | some k => do
      -- both `get(k).unwrap()`s of the source
      let protocolsSelf ← Outcome.ofOption (SortedMap.get? k self.supportedProtocols)
      let protocolsOther ← Outcome.ofOption (SortedMap.get? k other.supportedProtocols)
      pure (k, protocolsSelf.intersection protocolsOther)

/-- What the negotiation is for: the versions both peers support. -/
def commonVersions (a b : HandshakeMsg V) : Set V := {k | k ∈ a.versions ∧ k ∈ b.versions}

/-! ## The loop -/

/-- The version the loop returns is one of `self`'s and one the iterator still held. -/
theorem versionLoop_sound : ∀ {outer inner : List (V × SupportedProtocols)} {k : V},
    versionLoop outer inner = some k → k ∈ outer.map Prod.fst ∧ k ∈ inner.map Prod.fst
  | [], _, _, h => by cases h
  | (kOuter, s) :: outer, inner, k, h => by
    unfold versionLoop at h
    rcases hfind : Iter.find (fun e => decide (e.1 ≤ kOuter)) inner with
      ⟨_ | ⟨kInner, sInner⟩, inner'⟩
    · rw [hfind] at h
      cases h
    · rw [hfind] at h
      dsimp only at h
      obtain ⟨pre, rfl, -, -⟩ := Iter.find_eq_some hfind
      by_cases heq : kInner = kOuter
      · -- the iteration that matched
        rw [if_pos heq] at h
        have hk : kInner = k := Option.some.inj h
        rw [← hk]
        refine ⟨?_, List.mem_map.mpr ⟨(kInner, sInner), by simp, rfl⟩⟩
        rw [heq]
        exact List.mem_cons_self
      · -- a later iteration, on what is left of the iterator
        rw [if_neg heq] at h
        obtain ⟨hout, hin⟩ := versionLoop_sound h
        refine ⟨List.mem_cons_of_mem _ hout, ?_⟩
        rw [List.map_append, List.map_cons]
        exact List.mem_append_right _ (List.mem_cons_of_mem _ hin)

/-- When the iterator, in descending order, holds the current version, the iteration finds it:
every entry before it is above the version, and every one after it below. -/
theorem versionLoop_of_head_mem {kOuter : V} {s : SupportedProtocols}
    {outer inner : List (V × SupportedProtocols)}
    (hdesc : inner.Pairwise (fun a b => b.1 < a.1)) (hmem : kOuter ∈ inner.map Prod.fst) :
    versionLoop ((kOuter, s) :: outer) inner = some kOuter := by
  obtain ⟨e, he, hek⟩ := List.mem_map.mp hmem
  unfold versionLoop
  rcases hfind : Iter.find (fun e => decide (e.1 ≤ kOuter)) inner with
    ⟨_ | ⟨kInner, sInner⟩, inner'⟩
  · have := Iter.find_eq_none hfind e he
    simp [hek] at this
  · rw [hfind]
    dsimp only
    obtain ⟨pre, rfl, hpre, hx⟩ := Iter.find_eq_some hfind
    have hle : kInner ≤ kOuter := by simpa using hx
    -- `e` is not before the entry found, and not after it either
    have hge : kOuter ≤ kInner := by
      rw [← hek]
      rcases List.mem_append.mp he with hpre' | hrest
      · have := hpre e hpre'
        simp [hek] at this
      · rcases List.mem_cons.mp hrest with rfl | hafter
        · exact le_refl _
        · have hdesc' := (List.pairwise_append.mp hdesc).2.1
          exact le_of_lt (List.rel_of_pairwise_cons hdesc' hafter)
    have heq : kInner = kOuter := le_antisymm hle hge
    rw [if_pos heq, heq]

/-! ## The negotiation -/

variable {a b : HandshakeMsg V}

theorem reverse_pairwise (m : HandshakeMsg V) :
    m.supportedProtocols.reverse.Pairwise (fun x y => y.1 < x.1) :=
  List.pairwise_reverse.mpr m.sorted

theorem mem_versions_reverse {m : HandshakeMsg V} {k : V} :
    k ∈ m.supportedProtocols.reverse.map Prod.fst ↔ k ∈ m.versions := by
  rw [List.map_reverse, List.mem_reverse]
  rfl

theorem get?_isSome {m : HandshakeMsg V} {k : V} (hk : k ∈ m.versions) :
    ∃ s, SortedMap.get? k m.supportedProtocols = some s := by
  obtain ⟨⟨k', s⟩, hmem, rfl⟩ := List.mem_map.mp hk
  exact ⟨s, (SortedMap.get?_eq_some_iff m.sorted).mpr hmem⟩

/-- The outcome once the loop returned a version both maps hold. -/
theorem performHandshake_of_versionLoop {k : V} {sa sb : SupportedProtocols}
    (hchain : a.chainId = b.chainId) (hnet : a.networkId = b.networkId)
    (hloop : versionLoop a.supportedProtocols.reverse b.supportedProtocols.reverse = some k)
    (ha : SortedMap.get? k a.supportedProtocols = some sa)
    (hb : SortedMap.get? k b.supportedProtocols = some sb) :
    a.performHandshake b = .ok (k, sa.intersection sb) := by
  rw [performHandshake, if_neg (not_not_intro hchain), if_neg (not_not_intro hnet), hloop]
  dsimp only
  rw [ha, hb]
  rfl

/-- **A negotiated version is one both peers support**, and the protocols negotiated are those
both run over it. -/
theorem performHandshake_sound {v : V} {p : SupportedProtocols}
    (h : a.performHandshake b = .ok (v, p)) :
    v ∈ commonVersions a b ∧ ∃ sa sb, SortedMap.get? v a.supportedProtocols = some sa ∧
      SortedMap.get? v b.supportedProtocols = some sb ∧ p = sa.intersection sb := by
  unfold performHandshake at h
  split_ifs at h
  split at h
  · cases h
  · rename_i k hloop
    obtain ⟨hka, hkb⟩ := versionLoop_sound hloop
    obtain ⟨sa, hsa⟩ := get?_isSome (Iff.mp mem_versions_reverse hka)
    obtain ⟨sb, hsb⟩ := get?_isSome (Iff.mp mem_versions_reverse hkb)
    rw [hsa, hsb] at h
    cases h
    exact ⟨⟨Iff.mp mem_versions_reverse hka, Iff.mp mem_versions_reverse hkb⟩, sa, sb, hsa, hsb, rfl⟩

/-- One's own highest version is the head of the map walked downwards. -/
theorem reverse_eq_cons_of_greatest {m : HandshakeMsg V} {v : V} (hv : v ∈ m.versions)
    (hmax : ∀ k ∈ m.versions, k ≤ v) :
    ∃ s rest, m.supportedProtocols.reverse = (v, s) :: rest := by
  match hrev : m.supportedProtocols.reverse with
  | [] =>
    rw [← mem_versions_reverse, hrev] at hv
    cases hv
  | (k, s) :: rest =>
    have hdesc := m.reverse_pairwise
    rw [hrev] at hdesc
    have hk : k ∈ m.versions := Iff.mp mem_versions_reverse (by rw [hrev]; exact List.mem_cons_self)
    -- `v` is at most the head, which is at most `v`
    have hvk : v ≤ k := by
      rw [← mem_versions_reverse, hrev] at hv
      rcases List.mem_cons.mp hv with rfl | hv
      · exact le_refl _
      · obtain ⟨e, he, rfl⟩ := List.mem_map.mp hv
        exact le_of_lt (List.rel_of_pairwise_cons hdesc he)
    rw [le_antisymm (hmax k hk) hvk]
    exact ⟨s, rest, rfl⟩

/-- **When the peer supports one's own highest version, that version is negotiated**, and it is
the greatest common one. -/
theorem performHandshake_of_greatest_mem {v : V} (hchain : a.chainId = b.chainId)
    (hnet : a.networkId = b.networkId) (hv : v ∈ a.versions) (hmax : ∀ k ∈ a.versions, k ≤ v)
    (hvb : v ∈ b.versions) :
    IsGreatest (commonVersions a b) v ∧ ∃ sa sb, SortedMap.get? v a.supportedProtocols = some sa ∧
      SortedMap.get? v b.supportedProtocols = some sb ∧
      a.performHandshake b = .ok (v, sa.intersection sb) := by
  obtain ⟨s, rest, hrev⟩ := reverse_eq_cons_of_greatest hv hmax
  have hloop : versionLoop a.supportedProtocols.reverse b.supportedProtocols.reverse = some v := by
    rw [hrev]
    exact versionLoop_of_head_mem b.reverse_pairwise (Iff.mpr mem_versions_reverse hvb)
  obtain ⟨sa, hsa⟩ := get?_isSome hv
  obtain ⟨sb, hsb⟩ := get?_isSome hvb
  exact ⟨⟨⟨hv, hvb⟩, fun k hk => hmax k hk.1⟩, sa, sb, hsa, hsb,
    performHandshake_of_versionLoop hchain hnet hloop hsa hsb⟩

/-- Once the chain and the network match, the negotiation fails exactly when the loop finds
nothing. -/
theorem performHandshake_eq_err_iff (hchain : a.chainId = b.chainId)
    (hnet : a.networkId = b.networkId) :
    a.performHandshake b = .err .noCommonProtocols ↔
      versionLoop a.supportedProtocols.reverse b.supportedProtocols.reverse = none := by
  rw [performHandshake, if_neg (not_not_intro hchain), if_neg (not_not_intro hnet)]
  rcases hloop : versionLoop a.supportedProtocols.reverse b.supportedProtocols.reverse with _ | k
  · exact iff_of_true rfl rfl
  · obtain ⟨hka, hkb⟩ := versionLoop_sound hloop
    obtain ⟨sa, hsa⟩ := get?_isSome (Iff.mp mem_versions_reverse hka)
    obtain ⟨sb, hsb⟩ := get?_isSome (Iff.mp mem_versions_reverse hkb)
    dsimp only
    rw [hsa, hsb]
    exact iff_of_false (fun h => by cases h) (fun h => by cases h)

theorem commonVersions_comm : commonVersions a b = commonVersions b a :=
  Set.ext fun _ => and_comm

/-! ## One version, as today -/

section Subsingleton

variable [Subsingleton V]

/-- With one version, a version both peers hold is the greatest common one, and they negotiate
it with the protocols both run over it. -/
theorem performHandshake_of_mem_of_subsingleton {v : V} (hchain : a.chainId = b.chainId)
    (hnet : a.networkId = b.networkId) (hva : v ∈ a.versions) (hvb : v ∈ b.versions) :
    IsGreatest (commonVersions a b) v ∧ ∃ sa sb, SortedMap.get? v a.supportedProtocols = some sa ∧
      SortedMap.get? v b.supportedProtocols = some sb ∧
      a.performHandshake b = .ok (v, sa.intersection sb) :=
  performHandshake_of_greatest_mem hchain hnet hva (fun k _ => le_of_eq (Subsingleton.elim k v)) hvb

/-- **With one version the negotiation is exact**: it returns the greatest common version and the
protocols both run over it. -/
theorem performHandshake_eq_ok_iff_of_subsingleton {v : V} {p : SupportedProtocols}
    (hchain : a.chainId = b.chainId) (hnet : a.networkId = b.networkId) :
    a.performHandshake b = .ok (v, p) ↔
      IsGreatest (commonVersions a b) v ∧ ∃ sa sb, SortedMap.get? v a.supportedProtocols = some sa ∧
        SortedMap.get? v b.supportedProtocols = some sb ∧ p = sa.intersection sb := by
  constructor
  · intro h
    obtain ⟨hv, hprotocols⟩ := performHandshake_sound h
    exact ⟨⟨hv, fun k _ => le_of_eq (Subsingleton.elim k v)⟩, hprotocols⟩
  · rintro ⟨⟨hv, -⟩, sa, sb, hsa, hsb, rfl⟩
    obtain ⟨-, sa', sb', hsa', hsb', hok⟩ :=
      performHandshake_of_mem_of_subsingleton hchain hnet hv.1 hv.2
    rw [hsa] at hsa'
    rw [hsb] at hsb'
    cases hsa'
    cases hsb'
    exact hok

/-- With one version the negotiation succeeds exactly when there is a common version. -/
theorem exists_performHandshake_eq_ok_iff_of_subsingleton (hchain : a.chainId = b.chainId)
    (hnet : a.networkId = b.networkId) :
    (∃ v p, a.performHandshake b = .ok (v, p)) ↔ (commonVersions a b).Nonempty := by
  constructor
  · rintro ⟨v, p, h⟩
    exact ⟨v, (performHandshake_sound h).1⟩
  · rintro ⟨v, hva, hvb⟩
    obtain ⟨-, sa, sb, -, -, hok⟩ := performHandshake_of_mem_of_subsingleton hchain hnet hva hvb
    exact ⟨v, _, hok⟩

/-- With one version the negotiation fails exactly when there is no common version. -/
theorem performHandshake_eq_err_iff_of_subsingleton (hchain : a.chainId = b.chainId)
    (hnet : a.networkId = b.networkId) :
    a.performHandshake b = .err .noCommonProtocols ↔ commonVersions a b = ∅ := by
  constructor
  · intro h
    ext k
    refine iff_of_false (fun hk => ?_) (Set.notMem_empty k)
    obtain ⟨-, sa, sb, -, -, hok⟩ := performHandshake_of_mem_of_subsingleton hchain hnet hk.1 hk.2
    rw [h] at hok
    cases hok
  · intro h
    rw [performHandshake_eq_err_iff hchain hnet]
    rcases hloop : versionLoop a.supportedProtocols.reverse b.supportedProtocols.reverse with _ | k
    · rfl
    · obtain ⟨hka, hkb⟩ := versionLoop_sound hloop
      have hk : k ∈ commonVersions a b := ⟨Iff.mp mem_versions_reverse hka, Iff.mp mem_versions_reverse hkb⟩
      rw [h] at hk
      exact absurd hk (Set.notMem_empty k)

/-- **With one version both sides negotiate the same outcome.** -/
theorem performHandshake_comm_of_subsingleton (hchain : a.chainId = b.chainId)
    (hnet : a.networkId = b.networkId) : a.performHandshake b = b.performHandshake a := by
  by_cases hc : (commonVersions a b).Nonempty
  · -- both return the common version, with the intersection taken in either order
    obtain ⟨v, hva, hvb⟩ := hc
    obtain ⟨-, sa, sb, hsa, hsb, hab⟩ := performHandshake_of_mem_of_subsingleton hchain hnet hva hvb
    obtain ⟨-, sb', sa', hsb', hsa', hba⟩ :=
      performHandshake_of_mem_of_subsingleton hchain.symm hnet.symm hvb hva
    rw [hsa] at hsa'
    rw [hsb] at hsb'
    cases hsa'
    cases hsb'
    rw [hab, hba, SupportedProtocols.intersection_comm]
  · -- neither has a common version
    have hab := Set.not_nonempty_iff_eq_empty.mp hc
    have hba : commonVersions b a = ∅ := by rw [commonVersions_comm, hab]
    rw [(performHandshake_eq_err_iff_of_subsingleton hchain hnet).mpr hab,
      (performHandshake_eq_err_iff_of_subsingleton hchain.symm hnet.symm).mpr hba]

end Subsingleton

/-! ## The version of today -/

/-- A validator's message on chain 0, running `protocols` over `V1`. -/
def v1Msg (protocols : SupportedProtocols) : HandshakeMsg MessagingProtocolVersion :=
  ⟨[(.v1, protocols)], List.pairwise_singleton _ _, 0, .validator⟩

/-- `ConsensusRpc` and `MempoolDirectSend`, bits 0 and 2. -/
def rpcAndMempool : SupportedProtocols := ⟨⟨[0b10100000]⟩⟩

/-- `ConsensusRpc` alone. -/
def rpcOnly : SupportedProtocols := ⟨⟨[0b10000000]⟩⟩

-- the peers agree on `V1` and on the consensus RPC they both run
example : (v1Msg rpcAndMempool).performHandshake (v1Msg rpcOnly) = .ok (.v1, rpcOnly) := by
  decide

end HandshakeMsg

end Dijets.Net
