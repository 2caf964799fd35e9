import Mccl.Dmem.AddressResolution

/-! # Removing a Node from the Catalog

    Model of `MemoryCatalog::remove_node`, which `ClusterManager` calls when a
    node has failed.

    * The loop compares keys under a mask that keeps the node **and** the region,
      so it finds the key of region 0 only (`lookup_remove_node`).
    * `remove_node_forgets_iff`: the node's entries are gone, and no others,
      exactly if the catalog had none of its regions but region 0.
    * `resolve_remove_node`: an address in any other region of the failed node
      resolves as before. -/

namespace Mccl.Dmem

/-! ## Erasing by Key -/

section EraseWhere

variable {α : Type} [DecidableEq α] {β : α → Type} (p : α → Bool)

/-- A loop over the entries that erases some of them. The order of the entries
    makes no difference. -/
def eraseWhere (m : Finmap β) : Finmap β :=
  m.foldl (fun m key _ => if p key then m.erase key else m)
    (fun m a _ b _ => by by_cases ha : p a <;> by_cases hb : p b <;> simp [ha, hb, Finmap.erase_erase]) m

/-- The loop over the entries that are left. -/
theorem lookup_eraseLoop (l : List (Sigma β)) (m : Finmap β) (a : α) :
    (l.foldl (fun m s => if p s.1 then m.erase s.1 else m) m).lookup a =
      if p a ∧ a ∈ l.keys then none else m.lookup a := by
  induction l generalizing m with
  | nil => simp
  | cons s l ih =>
    rw [List.foldl_cons, ih]
    by_cases ha : p a
    · by_cases hs : a = s.1
      · subst hs
        simp [ha]
      · -- erasing the head does not touch `a`
        have hhead : (if p s.1 then m.erase s.1 else m).lookup a = m.lookup a := by
          split
          · exact Finmap.lookup_erase_ne hs
          · rfl
        simp [hhead, hs]
    · have hs : p s.1 → a ≠ s.1 := by
        intro hp heq
        exact ha (heq ▸ hp)
      simp only [ha, Bool.false_eq_true, false_and, if_false]
      split
      case isTrue hp => exact Finmap.lookup_erase_ne (hs hp)
      case isFalse => rfl

theorem lookup_eraseWhere (m : Finmap β) (a : α) :
    (eraseWhere p m).lookup a = if p a then none else m.lookup a := by
  induction m using Finmap.induction_on with
  | H l =>
    have hloop : (eraseWhere p l.toFinmap).lookup a =
        if p a ∧ a ∈ l.entries.keys then none else l.toFinmap.lookup a :=
      lookup_eraseLoop p l.entries l.toFinmap a
    rw [hloop]
    by_cases ha : p a
    · by_cases hmem : a ∈ l.entries.keys
      · simp [ha, hmem]
      · simp only [ha, hmem, and_false, if_false, if_true]
        exact Finmap.lookup_eq_none.mpr hmem
    · simp [ha]

theorem mem_of_mem_eraseWhere {m : Finmap β} {a : α} (h : a ∈ eraseWhere p m) : a ∈ m := by
  rw [← Finmap.lookup_isSome, lookup_eraseWhere] at h
  split at h
  · cases h
  · exact Finmap.lookup_isSome.mp h

end EraseWhere

/-! ## The Mask -/

namespace MemoryCatalog

/-- What is compared of a key. -/
def masked (key : UInt64) : UInt64 := key &&& 0xFFFFFFFFFFFF0000

/-- The mask keeps all of a key: its last 16 bits are zero anyway. -/
theorem masked_catalog_key (n : UInt16) (r : UInt32) : masked (catalog_key n r) = catalog_key n r := by
  apply UInt64.toNat_inj.mp
  have hn := n.toNat_lt
  have hr := r.toNat_lt
  have hkey : (catalog_key n r).toNat = (n.toNat * 2 ^ 32 + r.toNat) <<< 16 := by
    rw [toNat_catalog_key, Nat.shiftLeft_eq]
    omega
  have hmask : (0xFFFFFFFFFFFF0000 : UInt64).toNat = (2 ^ 48 - 1) <<< 16 := by decide
  rw [masked, UInt64.toNat_and, hkey, hmask, ← Nat.shiftLeft_and_distrib,
    Nat.and_two_pow_sub_one_eq_mod, Nat.mod_eq_of_lt (by omega)]

/-- The entries that `it->first` passes the comparison for are erased. -/
def remove_node (c : MemoryCatalog) (node_id : UInt16) : MemoryCatalog where
  entries_ := eraseWhere (fun key => masked key = masked (catalog_key node_id 0)) c.entries_
  packed key h := c.packed key (mem_of_mem_eraseWhere _ h)

theorem lookup_remove_node (c : MemoryCatalog) (n m : UInt16) (r : UInt32) :
    (c.remove_node n).lookup m r = if m = n ∧ r = 0 then none else c.lookup m r := by
  have hkeys : masked (catalog_key m r) = masked (catalog_key n 0) ↔ m = n ∧ r = 0 := by
    rw [masked_catalog_key, masked_catalog_key]
    constructor
    · exact catalog_key_injective
    · rintro ⟨rfl, rfl⟩
      rfl
  show (eraseWhere _ c.entries_).lookup (catalog_key m r) = _
  rw [lookup_eraseWhere]
  simp only [decide_eq_true_eq, hkeys]
  rfl

/-- **Removal**: `remove_node` makes the catalog forget node `n`, and nothing
    else, if and only if the only region of `n` in it is region 0. -/
theorem remove_node_forgets_iff (c : MemoryCatalog) (n : UInt16) :
    ((∀ r, (c.remove_node n).lookup n r = none) ∧
      ∀ m r, m ≠ n → (c.remove_node n).lookup m r = c.lookup m r) ↔
    ∀ r, r ≠ 0 → c.lookup n r = none := by
  simp only [lookup_remove_node]
  constructor
  · rintro ⟨hnone, -⟩ r hr
    have := hnone r
    rwa [if_neg fun h => hr h.2] at this
  · intro hnone
    constructor
    · intro r
      by_cases hr : r = 0
      · simp [hr]
      · simp [hr, hnone r hr]
    · intro m r hm
      rw [if_neg fun h => hm h.1]

/-- Region 1 of node 3 is still there when node 3 has been removed. -/
theorem remove_node_keeps_region :
    ((MemoryCatalog.empty.deserialize_from Node.sample 64 3).remove_node 3).lookup 3 1 =
      some ⟨4096, 64, 7, 3, 1⟩ := by
  rw [lookup_remove_node, if_neg (by decide), lookup_deserialize_from, if_pos rfl,
    carried_eq _ _ (by decide), if_pos (by decide), Node.sample, slot_writeSlot]
  rfl

end MemoryCatalog

/-- **Addresses of a failed node** resolve as before, keys included, unless they
    are in region 0. -/
theorem Manager.resolve_remove_node (m : Manager) (n : UInt16) {addr : GlobalAddress} (h : addr.region_id ≠ 0) :
    { m with catalog_ := m.catalog_.remove_node n }.resolve addr = m.resolve addr := by
  unfold Manager.resolve Manager.lookup_remote
  simp only [MemoryCatalog.lookup_remove_node, h, and_false, if_false]

end Mccl.Dmem
