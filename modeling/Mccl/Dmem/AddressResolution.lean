import Mccl.Dmem.MemoryCatalog

/-! # Regions and Address Resolution

    Model of `register_region`, `unregister_region`, `resolve` and `lookup_remote`
    of `dmem/DistributedMemoryManager.cpp`, over the catalog of the node.

    * A node registers its own regions, copies the catalogs of its peers, and
      resolves global addresses: of its own regions from its table, of others
      from the catalog.
    * `resolve_remote_sound`: a remote address resolves to what its owner has
      published last, as long as the node has id 0 or keeps nothing under
      node id 0, and no copy of a catalog is shorter than what it replaces.
    * On another node, a region of its own answers for node 0
      (`resolve_own_as_remote`). -/

namespace Mccl.Dmem

/-! ## Addresses -/

structure GlobalAddress where
  node_id : UInt16
  region_id : UInt32
  offset : UInt64
deriving DecidableEq

structure MemoryRegion where
  gaddr : GlobalAddress
  local_addr : UInt64
  length : UInt64
  rkey : UInt32
  lkey : UInt32
  flags : UInt8

/-- `MemoryRegion{}`. -/
instance : Inhabited MemoryRegion := ⟨⟨⟨0, 0, 0⟩, 0, 0, 0, 0, 0⟩⟩

structure AddrResolution where
  is_local : Bool := false
  local_ptr : UInt64 := 0
  remote_addr : UInt64 := 0
  remote_rkey : UInt32 := 0
  local_lkey : UInt32 := 0
  length : UInt64 := 0
deriving DecidableEq

/-! ## The Manager -/

/-- The part of a node's manager that keeps track of memory regions. -/
structure Manager where
  node_id_ : UInt16
  regions_ : List MemoryRegion
  next_region_id_ : UInt32
  catalog_ : MemoryCatalog

namespace Manager

/-- `regions_[id] = region`, after growing the table if need be. -/
def setRegion (regions : List MemoryRegion) (id : Nat) (region : MemoryRegion) : List MemoryRegion :=
  (regions ++ List.replicate (id + 1 - regions.length) default).set id region

/-- `mr` is what `ibv_reg_mr` returns: the remote and the local key. -/
def register_region (m : Manager) (base_addr length : UInt64) (flags : UInt8) (mr : Option (UInt32 × UInt32)) :
    Except String (UInt32 × Manager) :=
  if base_addr = 0 then .error "DMEM: null base_addr"
  else if length = 0 then .error "DMEM: zero-length region"
  else match mr with
    | none => .error "DMEM: ibv_reg_mr failed"
    | some (rkey, lkey) =>
      let region_id := m.next_region_id_
      let region : MemoryRegion := ⟨⟨m.node_id_, region_id, 0⟩, base_addr, length, rkey, lkey, flags⟩
      .ok (region_id,
        { m with
          next_region_id_ := m.next_region_id_ + 1
          regions_ := setRegion m.regions_ region_id.toNat region
          catalog_ := m.catalog_.upsert region_id
            ⟨region.local_addr, region.length, region.rkey, region.flags.toUInt32, 1⟩ })

def unregister_region (m : Manager) (region_id : UInt32) : Manager :=
  if region_id.toNat < m.regions_.length then
    { m with
      regions_ := m.regions_.set region_id.toNat default
      catalog_ := m.catalog_.remove region_id }
  else m

/-- The address, key and length of a region of another node. -/
def lookup_remote (m : Manager) (node_id : UInt16) (region_id : UInt32) : Option (UInt64 × UInt32 × UInt64) :=
  (m.catalog_.lookup node_id region_id).map fun entry => (entry.local_addr, entry.rkey, entry.length)

def resolve (m : Manager) (addr : GlobalAddress) : AddrResolution :=
  if addr.node_id = m.node_id_ then
    match m.regions_[addr.region_id.toNat]? with
    | none => {}
    | some region =>
      if 0 < region.length ∧ addr.offset < region.length then
        { is_local := true
          local_ptr := region.local_addr + addr.offset
          local_lkey := region.lkey
          length := region.length - addr.offset }
      else {}
  else
    match m.lookup_remote addr.node_id addr.region_id with
    | none => {}
    | some (remote_addr, rkey, length) =>
      if addr.offset < length then
        { remote_addr := remote_addr + addr.offset
          remote_rkey := rkey
          length := length - addr.offset }
      else
        { remote_addr := remote_addr
          remote_rkey := rkey }

/-- The manager after construction. -/
def new (node_id : UInt16) : Manager := ⟨node_id, [], 1, .empty⟩

end Manager

/-! ## Runs of a Node -/

namespace Node

open MemoryCatalog

structure State where
  manager : Manager
  /-- The buffer and its length in the last `deserialize_from` for each source (ghost). -/
  last : UInt16 → Option (Buffer × Nat)

inductive Act where
  | register
  | unregister (region_id : UInt32)
  | deserialize (buf : Buffer) (len : Nat) (source : UInt16)

inductive Step : State → Act → State → Prop where
  | register {s : State} {m : Manager} {id : UInt32} (base_addr length : UInt64) (flags : UInt8)
      (mr : Option (UInt32 × UInt32)) (h : s.manager.register_region base_addr length flags mr = .ok (id, m)) :
      Step s .register { s with manager := m }
  | unregister {s : State} (id : UInt32) :
      Step s (.unregister id) { s with manager := s.manager.unregister_region id }
  | deserialize {s : State} (buf : Buffer) (len : Nat) (source : UInt16) :
      Step s (.deserialize buf len source)
        { manager := { s.manager with catalog_ := s.manager.catalog_.deserialize_from buf len source }
          last := Function.update s.last source (some (buf, len)) }

/-- The node with id `me`. -/
def node (me : UInt16) : System State Act := ⟨fun s => s = ⟨.new me, fun _ => none⟩, Step⟩

/-- The entry for region `r` that the last catalog of node `n` has carried. -/
def State.published (s : State) (n : UInt16) (r : UInt32) : Option RegionDirectoryEntry :=
  (s.last n).bind fun (buf, len) => carried buf r (len / RegionDirectoryEntry.WIRE_SIZE)

/-- What the node can write, from `buf`, to its catalog buffer. -/
def State.Serializes (s : State) (buf : Buffer) (out : Buffer × Nat) : Prop :=
  ∃ order : AList fun _ : UInt64 => RegionDirectoryEntry, order.toFinmap = s.manager.catalog_.entries_ ∧
    serialize_into order buf CATALOG_BUF_SIZE = out

/-- The condition on the steps of node `me`: unless it is node 0, it puts
    nothing under node id 0; and a copied catalog carries every region that the
    node knows of that peer. -/
def Apart (me : UInt16) (s : State) : Act → Prop
  | .register => me = 0
  | .unregister _ => True
  | .deserialize buf len source =>
    (source = 0 → me = 0 ∨ len < RegionDirectoryEntry.WIRE_SIZE) ∧
    (source ≠ me → ∀ r e, s.manager.catalog_.lookup source r = some e → 0 < e.length →
      (carried buf r (len / RegionDirectoryEntry.WIRE_SIZE)).isSome)

structure Inv (me : UInt16) (s : State) : Prop where
  node_id : s.manager.node_id_ = me
  /-- What is known of another node has been published by it. -/
  remote : ∀ n r e, n ≠ me → s.manager.catalog_.lookup n r = some e → 0 < e.length → s.published n r = some e
  /-- Only node 0 keeps anything under node id 0. -/
  own : me ≠ 0 → ∀ r, s.manager.catalog_.lookup 0 r = none

variable {me : UInt16} {s s' : State}

theorem lookup_zero_deserialize {buf : Buffer} {len : Nat} {source : UInt16} (c : MemoryCatalog)
    (h : source = 0 → len < RegionDirectoryEntry.WIRE_SIZE) (r : UInt32) :
    (c.deserialize_from buf len source).lookup 0 r = c.lookup 0 r := by
  rw [lookup_deserialize_from]
  split
  case isTrue hsource => rw [Nat.div_eq_of_lt (h hsource.symm), carried, Option.none_or]
  case isFalse => rfl

theorem Inv.step {a : Act} (h : Inv me s) (hok : Apart me s a) (hs : Step s a s') : Inv me s' := by
  cases hs with
  | register base_addr length flags mr hreg =>
    unfold Manager.register_region at hreg
    split at hreg
    · cases hreg
    split at hreg
    · cases hreg
    cases mr with
    | none => cases hreg
    | some keys =>
      cases hreg
      refine ⟨h.node_id, fun n r e hn he hpos => h.remote n r e hn ?_ hpos, fun hme => absurd hok hme⟩
      rw [← he, lookup_upsert, if_neg fun hz => hn (hz.1.trans hok.symm)]
  | unregister id =>
    unfold Manager.unregister_region
    split
    case isFalse => exact h
    case isTrue =>
      refine ⟨h.node_id, fun n r e hn he hpos => h.remote n r e hn ?_ hpos, fun hme r => ?_⟩
      · rw [lookup_remove] at he
        split at he
        · cases he
        · exact he
      · rw [lookup_remove, h.own hme, ite_self]
  | deserialize buf len source =>
    refine ⟨h.node_id, fun n r e hn he hpos => ?_, fun hme r => ?_⟩
    · rw [lookup_deserialize_from] at he
      by_cases hsource : n = source
      · subst hsource
        rw [if_pos rfl] at he
        simp only [State.published, Function.update_self, Option.bind_some]
        -- an entry that is not carried would have been dropped
        cases hc : carried buf r (len / RegionDirectoryEntry.WIRE_SIZE) with
        | some e' => simpa [hc] using he
        | none =>
          rw [hc, Option.none_or] at he
          have := hok.2 hn r e he hpos
          rw [hc] at this
          cases this
      · rw [if_neg hsource] at he
        simp only [State.published, Function.update_of_ne hsource]
        exact h.remote n r e hn he hpos
    · rw [lookup_zero_deserialize _ fun hz => (hok.1 hz).resolve_left hme]
      exact h.own hme r

theorem inv_of_reach (h : (node me).Reach (Apart me) s) : Inv me s := by
  refine h.invariant ?_ fun _ _ _ => Inv.step
  rintro _ rfl
  exact ⟨rfl, by simp [Manager.new], by simp [Manager.new]⟩

theorem resolve_remote {m : Manager} {a : GlobalAddress} (ha : a.node_id ≠ m.node_id_)
    (h : (m.resolve a).length ≠ 0) : ∃ e, m.catalog_.lookup a.node_id a.region_id = some e ∧ a.offset < e.length ∧
      m.resolve a =
        { remote_addr := e.local_addr + a.offset, remote_rkey := e.rkey, length := e.length - a.offset } := by
  unfold Manager.resolve Manager.lookup_remote at h ⊢
  rw [if_neg ha] at h ⊢
  cases he : m.catalog_.lookup a.node_id a.region_id with
  | none => simp [he] at h
  | some e =>
    by_cases hlt : a.offset < e.length
    · exact ⟨e, rfl, hlt, by simp [hlt]⟩
    · simp [he, hlt] at h

theorem serializes_iff {buf : Buffer} {out : Buffer × Nat} :
    s.Serializes buf out ↔ (overlay (fun r => s.manager.catalog_.lookup 0 (UInt32.ofNat r)) buf,
      extent fun r => s.manager.catalog_.lookup 0 (UInt32.ofNat r)) = out := by
  constructor
  · rintro ⟨order, horder, rfl⟩
    exact (s.manager.catalog_.serialize_into_eq horder buf (le_refl _)).symm
  · rintro rfl
    obtain ⟨order, horder⟩ : ∃ order : AList fun _ : UInt64 => RegionDirectoryEntry,
        order.toFinmap = s.manager.catalog_.entries_ :=
      s.manager.catalog_.entries_.induction_on fun order => ⟨order, rfl⟩
    exact ⟨order, horder, s.manager.catalog_.serialize_into_eq horder buf (le_refl _)⟩

/-- **Remote resolution**: in every run that keeps the key spaces apart, a remote
    address that resolves to something resolves to what its owner's last catalog
    has carried, and copying the catalog of another node does not change what the
    node serialises as its own. -/
theorem resolve_remote_sound (h : (node me).Reach (Apart me) s) :
    (∀ a : GlobalAddress, a.node_id ≠ me → (s.manager.resolve a).length ≠ 0 →
      ∃ e, s.published a.node_id a.region_id = some e ∧
        s.manager.resolve a =
          { remote_addr := e.local_addr + a.offset, remote_rkey := e.rkey, length := e.length - a.offset }) ∧
    ∀ buf len source s', source ≠ me → Apart me s (.deserialize buf len source) →
      Step s (.deserialize buf len source) s' → ∀ out res, s'.Serializes out res ↔ s.Serializes out res := by
  have hinv := inv_of_reach h
  constructor
  · intro a ha hlen
    obtain ⟨e, he, hoff, hres⟩ := resolve_remote (hinv.node_id ▸ ha) hlen
    have hpos : 0 < e.length := UInt64.lt_iff_toNat_lt.mpr (Nat.zero_lt_of_lt (UInt64.lt_iff_toNat_lt.mp hoff))
    exact ⟨e, hinv.remote _ _ e ha he hpos, hres⟩
  · rintro buf len source s' hne hok ⟨⟩ out res
    have hown : ∀ r, (s.manager.catalog_.deserialize_from buf len source).lookup 0 r =
        s.manager.catalog_.lookup 0 r :=
      lookup_zero_deserialize _ fun hz => (hok.1 hz).resolve_left fun hme => hne (hz.trans hme.symm)
    simp only [serializes_iff, hown]

/-- A catalog of two slots, with an entry in the second. -/
def sample : Buffer := writeSlot zeros 1 ⟨4096, 64, 7, 3, 1⟩

/-- Node 0 copies a catalog from node 3 and resolves an address in it. -/
theorem resolve_remote_copied : ∃ s, (node 0).Reach (Apart 0) s ∧ (s.manager.resolve ⟨3, 1, 8⟩).length = 56 ∧
    ∃ e, s.published 3 1 = some e ∧ s.manager.resolve ⟨3, 1, 8⟩ =
      { remote_addr := e.local_addr + 8, remote_rkey := e.rkey, length := e.length - 8 } := by
  have h : (node 0).Reach (Apart 0) _ := .step (a := Act.deserialize sample 64 3) (.init rfl)
    ⟨fun h => absurd h (by decide), by simp [Manager.new]⟩ (Step.deserialize sample 64 3)
  have hlookup : ((MemoryCatalog.empty).deserialize_from sample 64 3).lookup 3 1 = some ⟨4096, 64, 7, 3, 1⟩ := by
    rw [lookup_deserialize_from, if_pos rfl, carried_eq _ _ (by decide), if_pos (by decide), sample,
      slot_writeSlot]
    rfl
  have hlen : (Manager.resolve { Manager.new 0 with
      catalog_ := (MemoryCatalog.empty).deserialize_from sample 64 3 } ⟨3, 1, 8⟩).length = 56 := by
    simp [Manager.resolve, Manager.lookup_remote, Manager.new, hlookup]
  exact ⟨_, h, hlen, (resolve_remote_sound h).1 ⟨3, 1, 8⟩ (by decide) (hlen.trans_ne (by decide))⟩

/-- Node 1 has registered a region and copied no catalog, and resolves an address
    of node 0. -/
theorem resolve_own_as_remote : ∃ s, (node 1).Reachable s ∧ s.published 0 1 = none ∧
    (s.manager.resolve ⟨0, 1, 0⟩).length = 64 := by
  have h : (node 1).Reachable _ := .step (a := Act.register) (.init rfl) trivial
    (Step.register 4096 64 3 (some (7, 8)) rfl)
  refine ⟨_, h, rfl, ?_⟩
  simp [Manager.resolve, Manager.lookup_remote, Manager.new, lookup_upsert]

end Node

end Mccl.Dmem
