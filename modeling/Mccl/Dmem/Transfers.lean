import Mccl.Dmem.Discovery
import Mccl.Dmem.Puts

/-! # Bounds of Transfers

    Model of the checks of `get` and `put_with_imm` in
    `dmem/DistributedMemoryManager.cpp`, next to those of `put`: a transfer
    resolves its address and compares its length with what is left of the region.

    * `named`: the region or catalog entry that the ids of an address name.
    * `resolve_start`: where an address resolves to, and how much is left there.
    * `transfers_stay_inside`: a transfer that does not raise covers its range,
      chunk by chunk, and stays inside the one region; a range that is not in a
      region raises. -/

namespace Mccl.Dmem

/-! ## Checks -/

/-- What a get does when its checks have passed. -/
inductive GetPlan where
  /-- `memcpy` from an address of this node. -/
  | copy (local_ptr : UInt64)
  | read (remote_addr : UInt64) (rkey : UInt32)

namespace Manager

def get (m : Manager) (connected : UInt16 → Bool) (target_node : UInt16) (src_addr : GlobalAddress)
    (length : UInt64) : Except String GetPlan :=
  let res := m.resolve src_addr
  if res.length < length then
    .error ("DMEM: get length " ++ toString length.toNat ++ " exceeds region bounds " ++
      toString res.length.toNat)
  else if res.remote_rkey = 0 ∧ ¬res.is_local then .error "DMEM: get source not found in catalog"
  else if res.is_local then .ok (.copy res.local_ptr)
  else if ¬connected target_node then
    .error ("DMEM: no connection to node " ++ toString target_node.toNat)
  else .ok (.read res.remote_addr res.remote_rkey)

/-- The result is the remote address and the key of the one write that is posted.
    The key is not looked at. -/
def put_with_imm (m : Manager) (connected : UInt16 → Bool) (target_node : UInt16) (dst_addr : GlobalAddress)
    (length : UInt64) : Except String (UInt64 × UInt32) :=
  let res := m.resolve dst_addr
  if res.is_local then .error "DMEM: put_with_imm requires remote target"
  else if kRdmaBufSize < length.toNat then .error "DMEM: put_with_imm limited to staging buffer size"
  else if res.length < length then .error "DMEM: put_with_imm length exceeds region bounds"
  else if ¬connected target_node then
    .error ("DMEM: no connection to node " ++ toString target_node.toNat)
  else .ok (res.remote_addr, res.remote_rkey)

end Manager

/-! ## Ranges -/

/-- The addresses and lengths of the chunks of a transfer to or from `addr`. -/
def chunkRanges (addr : UInt64) (l : List (Nat × Nat)) : List (UInt64 × Nat) :=
  l.map fun chunk => (addr + UInt64.ofNat chunk.1, chunk.2)

/-- The ranges that a put of `length` bytes writes. -/
def PutPlan.ranges (length : Nat) : PutPlan → List (UInt64 × Nat)
  | .copy local_ptr => [(local_ptr, length)]
  | .write remote_addr _ => chunkRanges remote_addr (chunks length)

/-- The ranges that a get of `length` bytes reads. Its loop is that of
    `put_chunked`, without the path for a single chunk. -/
def GetPlan.ranges (length : Nat) : GetPlan → List (UInt64 × Nat)
  | .copy local_ptr => [(local_ptr, length)]
  | .read remote_addr _ => chunkRanges remote_addr (chunkLoop length length)

/-- The ranges lie between `start` and `start + length` and leave nothing out. -/
structure Fills (start length : Nat) (ranges : List (UInt64 × Nat)) : Prop where
  inside : ∀ range ∈ ranges, start ≤ range.1.toNat ∧ range.1.toNat + range.2 ≤ start + length
  covers : ∀ i < length, ∃ range ∈ ranges, ∃ k < range.2, range.1.toNat + k = start + i

variable {l : List (Nat × Nat)}

theorem Tiles.mem_le {n o : Nat} (h : Tiles n o l) {chunk : Nat × Nat} (hc : chunk ∈ l) :
    chunk.1 + chunk.2 ≤ n := by
  induction l generalizing o with
  | nil => cases hc
  | cons d l ih =>
    obtain ⟨hd, hl⟩ := h
    rcases List.mem_cons.mp hc with rfl | hc
    · rw [hd]
      exact hl.le
    · exact ih hl hc

theorem Tiles.exists_mem {n o i : Nat} (h : Tiles n o l) (hi : o ≤ i) (hn : i < n) :
    ∃ chunk ∈ l, ∃ k < chunk.2, chunk.1 + k = i := by
  induction l generalizing o with
  | nil =>
    have : o = n := h
    omega
  | cons d l ih =>
    obtain ⟨hd, hl⟩ := h
    by_cases hlt : i < o + d.2
    · exact ⟨d, List.mem_cons_self, i - o, by omega, by omega⟩
    · obtain ⟨chunk, hchunk, hk⟩ := ih hl (by omega)
      exact ⟨chunk, List.mem_cons_of_mem _ hchunk, hk⟩

theorem fills_chunkRanges {addr : UInt64} {n : Nat} (h : Tiles n 0 l)
    (hn : addr.toNat + n < 2 ^ 64) : Fills addr.toNat n (chunkRanges addr l) := by
  -- no address of a chunk wraps around
  have hstart : ∀ o ≤ n, (addr + UInt64.ofNat o).toNat = addr.toNat + o := by
    intro o ho
    rw [UInt64.toNat_add, UInt64.toNat_ofNat']
    omega
  constructor
  · intro range hrange
    obtain ⟨chunk, hchunk, rfl⟩ := List.mem_map.mp hrange
    have hle := h.mem_le hchunk
    rw [hstart _ (by omega)]
    dsimp only
    omega
  · intro i hi
    obtain ⟨chunk, hchunk, k, hk, hik⟩ := h.exists_mem (Nat.zero_le i) hi
    refine ⟨_, List.mem_map_of_mem hchunk, k, hk, ?_⟩
    rw [hstart _ (by omega)]
    omega

theorem fills_single (addr : UInt64) (n : Nat) : Fills addr.toNat n [(addr, n)] := by
  constructor
  · intro range hrange
    rw [List.mem_singleton.mp hrange]
    exact ⟨le_refl _, le_refl _⟩
  · intro i hi
    exact ⟨_, List.mem_singleton_self _, i, hi, rfl⟩

/-! ## Regions -/

namespace Manager

/-- Base address and length of what the ids of an address name: a registered region
    of this node, or an entry of the catalog. -/
def named (m : Manager) (addr : GlobalAddress) : Option (UInt64 × UInt64) :=
  if addr.node_id = m.node_id_ then
    (m.regions_[addr.region_id.toNat]?).bind fun region =>
      if 0 < region.length then some (region.local_addr, region.length) else none
  else (m.catalog_.lookup addr.node_id addr.region_id).map fun entry => (entry.local_addr, entry.length)

/-- No region and no catalog entry reaches the end of the address space. -/
structure Bounded (m : Manager) : Prop where
  regions : ∀ region ∈ m.regions_, region.local_addr.toNat + region.length.toNat < 2 ^ 64
  entries : ∀ n r e, m.catalog_.lookup n r = some e → e.local_addr.toNat + e.length.toNat < 2 ^ 64

variable {m : Manager} {addr : GlobalAddress} {base len length : UInt64}

theorem Bounded.named (h : m.Bounded) (hnamed : m.named addr = some (base, len)) :
    base.toNat + len.toNat < 2 ^ 64 := by
  unfold Manager.named at hnamed
  split at hnamed
  · obtain ⟨region, hregion, hif⟩ := Option.bind_eq_some_iff.mp hnamed
    split at hif
    · cases hif
      exact h.regions region (List.mem_of_getElem? hregion)
    · cases hif
  · obtain ⟨entry, hentry, heq⟩ := Option.map_eq_some_iff.mp hnamed
    cases heq
    exact h.entries _ _ entry hentry

end Manager

/-- Where a resolved address is, on this node or on another. -/
def AddrResolution.start (res : AddrResolution) : UInt64 := if res.is_local then res.local_ptr else res.remote_addr

/-- Something is left at a resolved address only if it lies in what its ids name. -/
theorem Manager.resolve_start {m : Manager} {addr : GlobalAddress} (h : (m.resolve addr).length ≠ 0) :
    ∃ base len, m.named addr = some (base, len) ∧ addr.offset < len ∧
      (m.resolve addr).start = base + addr.offset ∧ (m.resolve addr).length = len - addr.offset := by
  by_cases hnode : addr.node_id = m.node_id_
  · unfold resolve named at *
    rw [if_pos hnode] at h ⊢
    rw [if_pos hnode]
    cases hregion : m.regions_[addr.region_id.toNat]? with
    | none => simp [hregion] at h
    | some region =>
      simp only [hregion] at h
      split at h
      case isTrue hin =>
        refine ⟨region.local_addr, region.length, ?_, hin.2, ?_, ?_⟩
        · simp [hin.1]
        · simp [hin, AddrResolution.start]
        · simp [hin]
      case isFalse => exact absurd rfl h
  · obtain ⟨e, he, hoff, hres⟩ := Node.resolve_remote hnode h
    refine ⟨e.local_addr, e.length, ?_, hoff, ?_, ?_⟩
    · simp [named, hnode, he]
    · simp [hres, AddrResolution.start]
    · rw [hres]

/-! ## Transfers -/

/-- The ranges of a transfer of `length` bytes are all of its target, and the
    target lies in the region that the address names. -/
def Manager.Inside (m : Manager) (addr : GlobalAddress) (length : UInt64) (ranges : List (UInt64 × Nat)) : Prop :=
  ∃ base len, m.named addr = some (base, len) ∧ addr.offset.toNat + length.toNat ≤ len.toNat ∧
    Fills (base.toNat + addr.offset.toNat) length.toNat ranges

/-- The target is in no region: its ids name nothing, or it crosses the end. -/
def Manager.Outside (m : Manager) (addr : GlobalAddress) (length : UInt64) : Prop :=
  ∀ base len, m.named addr = some (base, len) → len.toNat < addr.offset.toNat + length.toNat

/-- What the check on the length gives. -/
theorem Manager.Bounded.start {m : Manager} (hm : m.Bounded) {addr : GlobalAddress} {length : UInt64}
    (hlength : 1 ≤ length) (hle : ¬(m.resolve addr).length < length) :
    ∃ base len, m.named addr = some (base, len) ∧ addr.offset.toNat + length.toNat ≤ len.toNat ∧
      (m.resolve addr).start.toNat = base.toNat + addr.offset.toNat ∧
      (m.resolve addr).start.toNat + length.toNat < 2 ^ 64 := by
  have hpos : 1 ≤ length.toNat := UInt64.le_iff_toNat_le.mp hlength
  have hle' : length.toNat ≤ (m.resolve addr).length.toNat := UInt64.le_iff_toNat_le.mp (UInt64.not_lt.mp hle)
  have hne : (m.resolve addr).length ≠ 0 := by
    intro hzero
    rw [hzero] at hle'
    exact absurd (hpos.trans hle') (by decide)
  obtain ⟨base, len, hnamed, hoff, hstart, hleft⟩ := resolve_start hne
  have hbound := hm.named hnamed
  have hoff' : addr.offset.toNat < len.toNat := UInt64.lt_iff_toNat_lt.mp hoff
  rw [hleft, UInt64.toNat_sub_of_le _ _ (UInt64.le_of_lt hoff)] at hle'
  have hsum : (base + addr.offset).toNat = base.toNat + addr.offset.toNat := by
    rw [UInt64.toNat_add]
    exact Nat.mod_eq_of_lt (by omega)
  refine ⟨base, len, hnamed, by omega, ?_, ?_⟩
  · rw [hstart, hsum]
  · rw [hstart, hsum]
    omega

section Checks

variable {m : Manager} {connected : UInt16 → Bool} {target : UInt16} {addr : GlobalAddress} {length : UInt64}

/-- A put that does not raise has compared its length, and starts where the address
    resolves to. -/
theorem put_ok {plan : PutPlan} (h : m.put connected target addr length = .ok plan) :
    ¬(m.resolve addr).length < length ∧
      (plan = .copy (m.resolve addr).start ∨ ∃ rkey, plan = .write (m.resolve addr).start rkey) := by
  unfold Manager.put at h
  dsimp only at h
  split at h
  · cases h
  split at h
  · cases h
  case isFalse hle =>
    refine ⟨hle, ?_⟩
    split at h
    · cases h
    split at h
    case isTrue hlocal =>
      cases h
      rw [AddrResolution.start, if_pos hlocal]
      exact .inl rfl
    case isFalse hlocal =>
      split at h
      · cases h
      · cases h
        rw [AddrResolution.start, if_neg hlocal]
        exact .inr ⟨_, rfl⟩

theorem get_ok {plan : GetPlan} (h : m.get connected target addr length = .ok plan) :
    ¬(m.resolve addr).length < length ∧
      (plan = .copy (m.resolve addr).start ∨ ∃ rkey, plan = .read (m.resolve addr).start rkey) := by
  unfold Manager.get at h
  dsimp only at h
  split at h
  · cases h
  case isFalse hle =>
    refine ⟨hle, ?_⟩
    split at h
    · cases h
    split at h
    case isTrue hlocal =>
      cases h
      rw [AddrResolution.start, if_pos hlocal]
      exact .inl rfl
    case isFalse hlocal =>
      split at h
      · cases h
      · cases h
        rw [AddrResolution.start, if_neg hlocal]
        exact .inr ⟨_, rfl⟩

theorem put_with_imm_ok {remote : UInt64 × UInt32} (h : m.put_with_imm connected target addr length = .ok remote) :
    ¬(m.resolve addr).length < length ∧ remote.1 = (m.resolve addr).start := by
  unfold Manager.put_with_imm at h
  dsimp only at h
  split at h
  · cases h
  case isFalse hlocal =>
    split at h
    · cases h
    split at h
    · cases h
    case isFalse hle =>
      split at h
      · cases h
      · cases h
        rw [AddrResolution.start, if_neg hlocal]
        exact ⟨hle, rfl⟩

end Checks

/-- **Transfers stay inside one region**: a put, get or put with immediate data of at
    least one byte that does not raise has a target inside the region or catalog entry
    that the address names, all chunks together are the whole target and none of them
    goes beyond it; if the target is in no region, each of the three raises. -/
theorem transfers_stay_inside {m : Manager} (hm : m.Bounded) (connected : UInt16 → Bool) (target : UInt16)
    (addr : GlobalAddress) {length : UInt64} (hlength : 1 ≤ length) :
    (∀ plan, m.put connected target addr length = .ok plan → m.Inside addr length (plan.ranges length.toNat)) ∧
    (∀ plan, m.get connected target addr length = .ok plan → m.Inside addr length (plan.ranges length.toNat)) ∧
    (∀ remote, m.put_with_imm connected target addr length = .ok remote →
      m.Inside addr length [(remote.1, length.toNat)]) ∧
    (m.Outside addr length →
      (∃ msg, m.put connected target addr length = .error msg) ∧
      (∃ msg, m.get connected target addr length = .error msg) ∧
      ∃ msg, m.put_with_imm connected target addr length = .error msg) := by
  -- the three kinds of ranges, once the length has been compared
  have hinside (hle : ¬(m.resolve addr).length < length) :
      m.Inside addr length [((m.resolve addr).start, length.toNat)] ∧
      m.Inside addr length (chunkRanges (m.resolve addr).start (chunks length.toNat)) ∧
      m.Inside addr length (chunkRanges (m.resolve addr).start (chunkLoop length.toNat length.toNat)) := by
    obtain ⟨base, len, hnamed, hfits, hstart, hbound⟩ := hm.start hlength hle
    have hloop := tiles_chunkLoop (le_refl length.toNat)
    rw [Nat.sub_self] at hloop
    exact ⟨⟨base, len, hnamed, hfits, hstart ▸ fills_single _ _⟩,
      ⟨base, len, hnamed, hfits, hstart ▸ fills_chunkRanges (tiles_chunks _) hbound⟩,
      ⟨base, len, hnamed, hfits, hstart ▸ fills_chunkRanges hloop hbound⟩⟩
  have hput : ∀ plan, m.put connected target addr length = .ok plan →
      m.Inside addr length (plan.ranges length.toNat) := by
    intro plan h
    obtain ⟨hle, rfl | ⟨rkey, rfl⟩⟩ := put_ok h
    · exact (hinside hle).1
    · exact (hinside hle).2.1
  have hget : ∀ plan, m.get connected target addr length = .ok plan →
      m.Inside addr length (plan.ranges length.toNat) := by
    intro plan h
    obtain ⟨hle, rfl | ⟨rkey, rfl⟩⟩ := get_ok h
    · exact (hinside hle).1
    · exact (hinside hle).2.2
  have himm : ∀ remote, m.put_with_imm connected target addr length = .ok remote →
      m.Inside addr length [(remote.1, length.toNat)] := by
    intro remote h
    obtain ⟨hle, hremote⟩ := put_with_imm_ok h
    rw [hremote]
    exact (hinside hle).1
  refine ⟨hput, hget, himm, fun hout => ?_⟩
  have hnot : ∀ ranges, ¬m.Inside addr length ranges := by
    rintro ranges ⟨base, len, hnamed, hfits, -⟩
    exact absurd hfits (Nat.not_le.mpr (hout base len hnamed))
  refine ⟨?_, ?_, ?_⟩
  · cases hres : m.put connected target addr length with
    | error msg => exact ⟨msg, rfl⟩
    | ok plan => exact absurd (hput plan hres) (hnot _)
  · cases hres : m.get connected target addr length with
    | error msg => exact ⟨msg, rfl⟩
    | ok plan => exact absurd (hget plan hres) (hnot _)
  · cases hres : m.put_with_imm connected target addr length with
    | error msg => exact ⟨msg, rfl⟩
    | ok remote => exact absurd (himm remote hres) (hnot _)

/-- A put of two chunks. -/
theorem transfers_stay_inside_two : Puts.writer.Bounded ∧
    ∃ plan, Puts.writer.put (fun _ => true) 1 ⟨1, 1, 8⟩ 2097152 = .ok plan ∧
      Puts.writer.Inside ⟨1, 1, 8⟩ 2097152 (plan.ranges (2097152 : UInt64).toNat) := by
  have hm : Puts.writer.Bounded := by
    constructor
    · intro region hregion
      cases hregion
    · intro n r e he
      have hlookup : (MemoryCatalog.empty.insert 1 1 ⟨4096, 4194304, 7, 3, 1⟩).lookup n r = some e := he
      rw [MemoryCatalog.lookup_insert, MemoryCatalog.lookup_empty] at hlookup
      split at hlookup
      · cases hlookup
        decide
      · cases hlookup
  have hput : Puts.writer.put (fun _ => true) 1 ⟨1, 1, 8⟩ 2097152 = .ok (.write (4096 + 8) 7) :=
    Puts.put_writer (by decide) (by decide)
  exact ⟨hm, _, hput, (transfers_stay_inside hm (fun _ => true) 1 ⟨1, 1, 8⟩ (by decide)).1 _ hput⟩

end Mccl.Dmem
