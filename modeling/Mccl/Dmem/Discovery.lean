import Mccl.Dmem.AddressResolution

/-! # Discovery of Regions

    Peers learn of a region when `serialize_into` writes its entry to the catalog
    buffer, at the slot of its id. The ids come from a counter that never goes back,
    and the buffer has `MAX_REGIONS_PER_NODE` slots.

    * `discoverable_iff`: after any calls of `register_region` and `unregister_region`
      all live regions are written exactly if their ids are below
      `MAX_REGIONS_PER_NODE`.
    * `region_not_written`: 255 regions that are registered and unregistered one by one
      use up the slots, and the next region is never written. -/

namespace Mccl.Dmem.Node

open MemoryCatalog

/-- Region `id` is registered. -/
def State.Live (s : State) (id : UInt32) (region : MemoryRegion) : Prop :=
  s.manager.regions_[id.toNat]? = some region ∧ 0 < region.length

/-- The number of registered regions. -/
def State.liveCount (s : State) : Nat := s.manager.regions_.countP fun region => decide (0 < region.length)

/-- The entry that `register_region` publishes. -/
def entryOf (region : MemoryRegion) : RegionDirectoryEntry :=
  ⟨region.local_addr, region.length, region.rkey, region.flags.toUInt32, 1⟩

/-- The entry is at the slot of `id`, among the bytes that `serialize_into` returns. -/
def Written (out : Buffer × Nat) (id : UInt32) (e : RegionDirectoryEntry) : Prop :=
  (id.toNat + 1) * RegionDirectoryEntry.WIRE_SIZE ≤ out.2 ∧ slot out.1 id.toNat = e

/-- Every live region is written, from every buffer and in every order of the entries. -/
def Discoverable (s : State) : Prop :=
  ∀ id region, s.Live id region → ∀ buf out, s.Serializes buf out → Written out id (entryOf region)

/-- The node registers and unregisters regions. -/
def Local (_ : State) : Act → Prop
  | .deserialize .. => False
  | _ => True

/-! ## Live Regions Are Published -/

variable {regions : List MemoryRegion} {region : MemoryRegion} {id : UInt32} {s : State}

/-- Growing the table adds regions of length 0 only. -/
theorem getElem?_setRegion {id j : Nat} {r : MemoryRegion} (hj : j ≠ id)
    (h : (Manager.setRegion regions id region)[j]? = some r) : regions[j]? = some r ∨ r = default := by
  unfold Manager.setRegion at h
  rw [List.getElem?_set_ne hj.symm, List.getElem?_append] at h
  split at h
  · exact .inl h
  · exact .inr (List.eq_of_mem_replicate (List.mem_of_getElem? h))

theorem getElem?_setRegion_self (regions : List MemoryRegion) (id : Nat) (region : MemoryRegion) :
    (Manager.setRegion regions id region)[id]? = some region := by
  unfold Manager.setRegion
  exact List.getElem?_set_self (by simp; omega)

/-- The catalog has the entry of every live region. -/
def Published (s : State) : Prop :=
  ∀ id region, s.Live id region → s.manager.catalog_.lookup 0 id = some (entryOf region)

theorem register_region_ok {m m' : Manager} {base_addr length : UInt64} {flags : UInt8}
    {mr : Option (UInt32 × UInt32)}
    (h : m.register_region base_addr length flags mr = .ok (id, m')) : ∃ region : MemoryRegion,
      id = m.next_region_id_ ∧ region.gaddr = ⟨m.node_id_, id, 0⟩ ∧ m' =
        { m with
          next_region_id_ := m.next_region_id_ + 1
          regions_ := Manager.setRegion m.regions_ id.toNat region
          catalog_ := m.catalog_.upsert id (entryOf region) } := by
  unfold Manager.register_region at h
  -- a null address, a length of zero and a failed `reg_mr` raise
  split at h
  · cases h
  split at h
  · cases h
  cases mr with
  | none => cases h
  | some keys =>
    cases h
    exact ⟨_, rfl, rfl, rfl⟩

theorem Published.step {s' : State} {a : Act} (h : Published s) (hok : Local s a) (hs : Step s a s') :
    Published s' := by
  cases hs with
  | register base_addr length flags mr hreg =>
    obtain ⟨region, -, -, rfl⟩ := register_region_ok hreg
    rintro j r ⟨hj, hpos⟩
    dsimp only at hj ⊢
    rw [lookup_upsert]
    split
    case isTrue heq =>
      rw [heq.2, getElem?_setRegion_self] at hj
      cases hj
      rfl
    case isFalse hne =>
      -- an older region, and not one that fills up the table
      have hid : j.toNat ≠ _ := fun heq => hne ⟨rfl, UInt32.toNat_inj.mp heq⟩
      rcases getElem?_setRegion hid hj with hold | rfl
      · exact h j r ⟨hold, hpos⟩
      · exact absurd hpos (by decide)
  | unregister id =>
    unfold Manager.unregister_region
    split
    case isFalse => exact h
    case isTrue hlt =>
      rintro j r ⟨hj, hpos⟩
      dsimp only at hj ⊢
      rw [lookup_remove]
      split
      case isTrue heq =>
        rw [heq.2, List.getElem?_set_self hlt] at hj
        cases hj
        exact absurd hpos (by decide)
      case isFalse hne =>
        have hid : id.toNat ≠ j.toNat := fun heq => hne ⟨rfl, UInt32.toNat_inj.mp heq.symm⟩
        rw [List.getElem?_set_ne hid] at hj
        exact h j r ⟨hj, hpos⟩
  | deserialize => exact hok.elim

theorem published_of_reach {me : UInt16} (h : (node me).Reach Local s) : Published s := by
  refine h.invariant (I := Published) ?_ fun _ _ _ => Published.step
  rintro _ rfl id region ⟨hget, -⟩
  cases hget

/-! ## Slots -/

theorem written_iff {e : RegionDirectoryEntry} {buf : Buffer} {out : Buffer × Nat}
    (he : s.manager.catalog_.lookup 0 id = some e) (hout : s.Serializes buf out) :
    Written out id e ↔ id.toNat < MAX_REGIONS_PER_NODE := by
  rw [serializes_iff] at hout
  subst hout
  have hentry : s.manager.catalog_.lookup 0 (UInt32.ofNat id.toNat) = some e := by rw [UInt32.ofNat_toNat, he]
  constructor
  · -- the bytes returned end with the buffer
    rintro ⟨hle, -⟩
    have hmax := hle.trans (extent_le _)
    rw [CATALOG_BUF_SIZE] at hmax
    exact Nat.le_of_mul_le_mul_right hmax (by decide)
  · intro hid
    have hlt : id.toNat < extent (fun r => s.manager.catalog_.lookup 0 (UInt32.ofNat r)) /
        RegionDirectoryEntry.WIRE_SIZE := lt_extent_of_isSome hid (by simp [he])
    refine ⟨(Nat.le_div_iff_mul_le (by decide)).mp hlt, ?_⟩
    rw [slot_overlay hid, hentry]
    rfl

/-- There is no slot beyond the buffer. -/
theorem lt_of_discoverable {me : UInt16} (h : (node me).Reach Local s) (hd : Discoverable s)
    (hlive : s.Live id region) : id.toNat < MAX_REGIONS_PER_NODE := by
  have hout : s.Serializes zeros _ := serializes_iff.mpr rfl
  exact (written_iff (published_of_reach h id region hlive) hout).mp (hd id region hlive zeros _ hout)

/-- **Discovery**: after any calls of `register_region` and `unregister_region`, every
    live region is written exactly if the live regions have ids below
    `MAX_REGIONS_PER_NODE`. -/
theorem discoverable_iff {me : UInt16} {s : State} (h : (node me).Reach Local s) :
    Discoverable s ↔ ∀ id region, s.Live id region → id.toNat < MAX_REGIONS_PER_NODE := by
  constructor
  · intro hd id region hlive
    exact lt_of_discoverable h hd hlive
  · intro hids id region hlive buf out hout
    exact (written_iff (published_of_reach h id region hlive) hout).mpr (hids id region hlive)

/-- A node with one region. -/
theorem discoverable_first : ∃ s, (node 2).Reach Local s ∧ s.liveCount = 1 ∧ Discoverable s := by
  have h : (node 2).Reach Local _ := .step (a := Act.register) (.init rfl) trivial
    (Step.register 4096 64 3 (some (7, 8)) rfl)
  refine ⟨_, h, rfl, (discoverable_iff h).mpr fun id region hlive => ?_⟩
  have hlt := (List.getElem?_eq_some_iff.mp hlive.1).1
  exact Nat.lt_of_lt_of_le hlt (by decide)

/-! ## Running Out of Slots -/

/-- The calls of a node that never has more than 255 live regions. -/
def Few (s : State) (a : Act) : Prop := Local s a ∧ s.liveCount ≤ 255

theorem countP_default (h : ∀ r ∈ regions, r = default) :
    regions.countP (fun r => decide (0 < r.length)) = 0 := by
  rw [List.countP_eq_zero]
  intro r hr
  rw [h r hr]
  decide

theorem default_of_mem_grown (h : ∀ r ∈ regions, r = default) (k : Nat) :
    ∀ r ∈ regions ++ List.replicate k default, r = default := by
  intro r hr
  rcases List.mem_append.mp hr with hr | hr
  · exact h r hr
  · exact List.eq_of_mem_replicate hr

theorem countP_setRegion (h : ∀ r ∈ regions, r = default) (id : Nat) (region : MemoryRegion) :
    (Manager.setRegion regions id region).countP (fun r => decide (0 < r.length)) ≤ 1 := by
  unfold Manager.setRegion
  rw [List.countP_set (by simp; omega), countP_default (default_of_mem_grown h _), Nat.zero_sub, Nat.zero_add]
  split
  · exact le_rfl
  · exact Nat.zero_le _

theorem unregister_region_next (m : Manager) (id : UInt32) :
    (m.unregister_region id).next_region_id_ = m.next_region_id_ := by
  unfold Manager.unregister_region
  split <;> rfl

theorem unregister_region_last {m : Manager}
    (hm : m.regions_ = Manager.setRegion regions id.toNat region) (h : ∀ r ∈ regions, r = default) :
    ∀ r ∈ (m.unregister_region id).regions_, r = default := by
  have hlt : id.toNat < m.regions_.length := by
    rw [hm, Manager.setRegion, List.length_set, List.length_append, List.length_replicate]
    omega
  intro r hr
  rw [Manager.unregister_region, if_pos hlt] at hr
  simp only [hm, Manager.setRegion, List.set_set] at hr
  rcases List.mem_or_eq_of_mem_set hr with hr | rfl
  · exact default_of_mem_grown h _ r hr
  · rfl

theorem churn (me : UInt16) (k : Nat) : ∃ s, (node me).Reach Few s ∧
    s.manager.next_region_id_ = UInt32.ofNat (k + 1) ∧ ∀ r ∈ s.manager.regions_, r = default := by
  induction k with
  | zero => exact ⟨_, .init rfl, rfl, by simp [Manager.new]⟩
  | succ k ih =>
    obtain ⟨s, hs, hnext, hall⟩ := ih
    have hfew : s.liveCount ≤ 255 := (countP_default hall).trans_le (Nat.zero_le _)
    have hreg := hs.next (.register 4096 64 3 (some (7, 8)) rfl) ⟨trivial, hfew⟩
    -- one region is live in between
    have hone := (countP_setRegion hall s.manager.next_region_id_.toNat
      ⟨⟨s.manager.node_id_, s.manager.next_region_id_, 0⟩, 4096, 64, 7, 8, 3⟩).trans (by decide : 1 ≤ 255)
    have hunreg := hreg.next (.unregister s.manager.next_region_id_) ⟨trivial, hone⟩
    refine ⟨_, hunreg, ?_, ?_⟩
    · rw [unregister_region_next]
      dsimp only
      rw [hnext, ← UInt32.ofNat_one, ← UInt32.ofNat_add]
    · exact unregister_region_last rfl hall

/-- After 255 regions that have come and gone, the node registers one more. It has one
    live region, with id 256, and `serialize_into` does not write it. -/
theorem region_not_written : ∃ s, (node 0).Reach Few s ∧ s.liveCount ≤ 255 ∧ ¬Discoverable s := by
  obtain ⟨s, hs, hnext, hall⟩ := churn 0 255
  have hfew : s.liveCount ≤ 255 := (countP_default hall).trans_le (Nat.zero_le _)
  have hreg := hs.next (.register 4096 64 3 (some (7, 8)) rfl) ⟨trivial, hfew⟩
  refine ⟨_, hreg, (countP_setRegion hall _ _).trans (by decide), fun hd => ?_⟩
  have hlocal : (node 0).Reach Local _ := hreg.mono fun _ _ h => h.1
  have hpos : (0 : UInt64) < 64 := by decide
  -- were it discoverable, its id 256 would have a slot
  have hlt := lt_of_discoverable hlocal hd ⟨getElem?_setRegion_self _ s.manager.next_region_id_.toNat _, hpos⟩
  rw [hnext] at hlt
  exact absurd hlt (by decide)

end Mccl.Dmem.Node
