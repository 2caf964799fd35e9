import Mccl.Dmem.MemoryCatalog
import Mccl.Framework.PackedMaps

/-! # The Region Registry of the Cluster

    `ClusterManager::publish_region`, `unpublish_region` and `lookup_region`
    (`runtime/ClusterManager.cpp`) over the memory catalog.

    * The catalog writes under node id 0 (`upsert`, `remove`) and reads under the
      node that is asked for. What node 3 publishes is found under node 0, and an
      entry of node 0 is withdrawn by any node.
    * `registry_iff`: over any set of calls, the registry is the map keyed by node
      and region exactly if only node 0 publishes, and no other node withdraws a
      region that node 0 publishes. -/

namespace Mccl

open Dmem PackedMaps

/-- `MemoryRegion::READABLE | MemoryRegion::WRITABLE`. -/
def REGION_FLAGS : UInt32 := 0x01 ||| 0x02

namespace ClusterManager

def publish_region (catalog_ : MemoryCatalog) (_node_id : UInt16) (region_id : UInt32) (local_addr length : UInt64)
    (rkey : UInt32) : MemoryCatalog :=
  catalog_.upsert region_id ⟨local_addr, length, rkey, REGION_FLAGS, 1⟩

def unpublish_region (catalog_ : MemoryCatalog) (_node_id : UInt16) (region_id : UInt32) : MemoryCatalog :=
  catalog_.remove region_id

def lookup_region (catalog_ : MemoryCatalog) (node_id : UInt16) (region_id : UInt32) : Option RegionDirectoryEntry :=
  catalog_.lookup node_id region_id

end ClusterManager

open ClusterManager

/-! ## Calls -/

inductive RegistryCall where
  | publish (node_id : UInt16) (region_id : UInt32) (local_addr length : UInt64) (rkey : UInt32)
  | unpublish (node_id : UInt16) (region_id : UInt32)

namespace RegistryCall

def run (catalog_ : MemoryCatalog) : RegistryCall → MemoryCatalog
  | publish node_id region_id local_addr length rkey =>
    publish_region catalog_ node_id region_id local_addr length rkey
  | unpublish node_id region_id => unpublish_region catalog_ node_id region_id

/-- What the call means: it sets or clears the entry of its node and region. -/
def update : RegistryCall → Update (UInt16 × UInt32) RegionDirectoryEntry
  | publish node_id region_id local_addr length rkey =>
    ⟨(node_id, region_id), fun _ => some ⟨local_addr, length, rkey, REGION_FLAGS, 1⟩⟩
  | unpublish node_id region_id => ⟨(node_id, region_id), fun _ => none⟩

end RegistryCall

theorem exact_apply (m : UInt16 × UInt32 → Option RegionDirectoryEntry) (n n' : UInt16) (r r' : UInt32)
    (change : Option RegionDirectoryEntry → Option RegionDirectoryEntry) :
    exact m ⟨(n, r), change⟩ (n', r') = if n' = n ∧ r' = r then change (m (n, r)) else m (n', r') := by
  unfold exact
  rw [Function.update_apply]
  simp only [Prod.mk.injEq]

/-- What each node has last published and not withdrawn. -/
def published (calls : List RegistryCall) : UInt16 × UInt32 → Option RegionDirectoryEntry :=
  (calls.map RegistryCall.update).foldl exact fun _ => none

/-- After all sequences of calls in `A`, every lookup finds what was published. -/
def RegistersAll (A : Set RegistryCall) : Prop :=
  ∀ calls : List RegistryCall, (∀ c ∈ calls, c ∈ A) → ∀ node region,
    lookup_region (calls.foldl RegistryCall.run .empty) node region = published calls (node, region)

/-- Node 0 publishes region `r`. -/
def PublishesOwn (A : Set RegistryCall) (r : UInt32) : Prop :=
  ∃ local_addr length rkey, .publish 0 r local_addr length rkey ∈ A

/-- Only node 0 publishes, and what it publishes is not withdrawn by others. -/
structure OnlyHead (A : Set RegistryCall) : Prop where
  publish : ∀ n r local_addr length rkey, .publish n r local_addr length rkey ∈ A → n = 0
  unpublish : ∀ n r, .unpublish n r ∈ A → n = 0 ∨ ¬PublishesOwn A r

/-! ## Agreement -/

section Agreement

variable {A : Set RegistryCall} {catalog : MemoryCatalog} {m : UInt16 × UInt32 → Option RegionDirectoryEntry}

/-- The catalog holds the map, which has entries of node 0 only, and only those
    that it publishes. -/
structure Agrees (A : Set RegistryCall) (catalog : MemoryCatalog)
    (m : UInt16 × UInt32 → Option RegionDirectoryEntry) : Prop where
  found : ∀ n r, catalog.lookup n r = m (n, r)
  own : ∀ n r, m (n, r) ≠ none → n = 0 ∧ PublishesOwn A r

theorem Agrees.step (hA : OnlyHead A) (h : Agrees A catalog m) {c : RegistryCall} (hc : c ∈ A) :
    Agrees A (c.run catalog) (exact m c.update) := by
  cases c with
  | publish n r local_addr length rkey =>
    have hn : n = 0 := hA.publish _ _ _ _ _ hc
    subst hn
    constructor
    · intro n' r'
      rw [RegistryCall.update, exact_apply, ← h.found]
      exact MemoryCatalog.lookup_upsert ..
    · intro n' r' hsome
      rw [RegistryCall.update, exact_apply] at hsome
      split at hsome
      case isTrue heq =>
        obtain ⟨rfl, rfl⟩ := heq
        exact ⟨rfl, local_addr, length, rkey, hc⟩
      case isFalse => exact h.own n' r' hsome
  | unpublish n r =>
    constructor
    · intro n' r'
      rw [RegistryCall.update, exact_apply, ← h.found]
      refine (MemoryCatalog.lookup_remove ..).trans ?_
      by_cases hn : n = 0
      · rw [hn]
      · -- what the catalog erases and what the map clears are different entries, and both are empty
        have hown := (hA.unpublish n r hc).resolve_left hn
        have herase : catalog.lookup 0 r = none := by
          by_contra hsome
          rw [h.found] at hsome
          exact hown (h.own 0 r hsome).2
        have hclear : catalog.lookup n r = none := by
          by_contra hsome
          rw [h.found] at hsome
          exact hn (h.own n r hsome).1
        by_cases h1 : n' = 0 ∧ r' = r
        · rw [if_pos h1, h1.1, h1.2, if_neg fun h => hn h.1.symm, herase]
        · rw [if_neg h1]
          split
          case isTrue h2 => rw [h2.1, h2.2, hclear]
          case isFalse => rfl
    · intro n' r' hsome
      rw [RegistryCall.update, exact_apply] at hsome
      split at hsome
      case isTrue => exact absurd rfl hsome
      case isFalse => exact h.own n' r' hsome

theorem Agrees.run (hA : OnlyHead A) (h : Agrees A catalog m) {calls : List RegistryCall} (hcalls : ∀ c ∈ calls, c ∈ A) :
    Agrees A (calls.foldl RegistryCall.run catalog) ((calls.map RegistryCall.update).foldl exact m) := by
  induction calls generalizing catalog m with
  | nil => exact h
  | cons c rest ih =>
    obtain ⟨hc, hrest⟩ := List.forall_mem_cons.mp hcalls
    exact ih (h.step hA hc) hrest

theorem registersAll_of_onlyHead (hA : OnlyHead A) : RegistersAll A := by
  intro calls hcalls node region
  have hempty : Agrees A .empty fun _ => none :=
    ⟨fun n r => MemoryCatalog.lookup_empty n r, fun _ _ hsome => absurd rfl hsome⟩
  exact (hempty.run hA hcalls).found node region

end Agreement

/-! ## Other Nodes -/

theorem lookup_published_elsewhere {n : UInt16} (hn : n ≠ 0) (r : UInt32) (local_addr length : UInt64) (rkey : UInt32) :
    lookup_region ([RegistryCall.publish n r local_addr length rkey].foldl RegistryCall.run .empty) n r = none ∧
      published [.publish n r local_addr length rkey] (n, r) = some ⟨local_addr, length, rkey, REGION_FLAGS, 1⟩ := by
  constructor
  · show (MemoryCatalog.upsert _ r _).lookup n r = none
    rw [MemoryCatalog.lookup_upsert, if_neg fun h => hn h.1, MemoryCatalog.lookup_empty]
  · show exact (fun _ => none) (RegistryCall.update _) (n, r) = _
    rw [RegistryCall.update, exact_apply, if_pos ⟨rfl, rfl⟩]

theorem lookup_withdrawn_elsewhere {n : UInt16} (hn : n ≠ 0) (r : UInt32) (local_addr length : UInt64) (rkey : UInt32) :
    lookup_region ([.publish 0 r local_addr length rkey, .unpublish n r].foldl RegistryCall.run .empty) 0 r = none ∧
      published [.publish 0 r local_addr length rkey, .unpublish n r] (0, r) =
        some ⟨local_addr, length, rkey, REGION_FLAGS, 1⟩ := by
  constructor
  · show (MemoryCatalog.remove _ r).lookup 0 r = none
    rw [MemoryCatalog.lookup_remove, if_pos ⟨rfl, rfl⟩]
  · show exact (exact (fun _ => none) (RegistryCall.update _)) (RegistryCall.update _) (0, r) = _
    rw [RegistryCall.update, RegistryCall.update, exact_apply, if_neg fun h => hn h.1.symm, exact_apply,
      if_pos ⟨rfl, rfl⟩]

/-- **The registry is a map keyed by node and region** over the sequences of calls
    in `A` if and only if only node 0 publishes, and no other node withdraws what it
    publishes. -/
theorem registry_iff (A : Set RegistryCall) : RegistersAll A ↔ OnlyHead A := by
  constructor
  · intro h
    constructor
    · intro n r local_addr length rkey hc
      by_contra hn
      obtain ⟨hlookup, hpublished⟩ := lookup_published_elsewhere hn r local_addr length rkey
      have heq := h _ (List.forall_mem_singleton.mpr hc) n r
      rw [hlookup, hpublished] at heq
      cases heq
    · intro n r hc
      by_contra hboth
      obtain ⟨hn, hown⟩ := not_or.mp hboth
      obtain ⟨local_addr, length, rkey, hpublish⟩ := not_not.mp hown
      obtain ⟨hlookup, hpublished⟩ := lookup_withdrawn_elsewhere hn r local_addr length rkey
      have heq := h _ (List.forall_mem_cons.mpr ⟨hpublish, List.forall_mem_singleton.mpr hc⟩) 0 r
      rw [hlookup, hpublished] at heq
      cases heq
  · exact registersAll_of_onlyHead

/-- Nodes 1 and 2 publish their region 1. Neither is found, and node 0, which has
    published nothing, has the region of node 2. -/
theorem regions_confused :
    let calls := [RegistryCall.publish 1 1 4096 64 7, .publish 2 1 8192 32 9]
    lookup_region (calls.foldl RegistryCall.run .empty) 1 1 = none ∧
    lookup_region (calls.foldl RegistryCall.run .empty) 2 1 = none ∧
    lookup_region (calls.foldl RegistryCall.run .empty) 0 1 = some ⟨8192, 32, 9, REGION_FLAGS, 1⟩ ∧
    published calls (1, 1) = some ⟨4096, 64, 7, REGION_FLAGS, 1⟩ ∧ published calls (0, 1) = none := by
  have hlookup : ∀ n, lookup_region ([RegistryCall.publish 1 1 4096 64 7, .publish 2 1 8192 32 9].foldl
      RegistryCall.run .empty) n 1 = if n = 0 then some ⟨8192, 32, 9, REGION_FLAGS, 1⟩ else none := by
    intro n
    show ((MemoryCatalog.upsert _ 1 _).upsert 1 _).lookup n 1 = _
    rw [MemoryCatalog.lookup_upsert, MemoryCatalog.lookup_upsert, MemoryCatalog.lookup_empty]
    by_cases hn : n = 0
    · simp [hn]
    · simp [hn]
  refine ⟨?_, ?_, ?_, ?_, ?_⟩
  · exact hlookup 1
  · exact hlookup 2
  · exact hlookup 0
  · rfl
  · rfl

end Mccl
