import Mathlib.Data.Finmap
import Mathlib.Order.Lattice.Nat
import Mccl.Framework.Arrays
import Mccl.Framework.System

/-! # The Memory Catalog

    Model of `dmem/MemoryCatalog.hpp` and `dmem/MemoryCatalog.cpp`: the directory
    of memory regions that a node publishes and that its peers copy.

    * **Wire format**: an entry takes 32 bytes; a region's id is the number of its
      slot in the buffer.
    * **Keys** pack a node's id and a region's id into 64 bits. A node keeps its
      own regions under node id 0, next to what it has copied from its peers.
    * `serialize_into_eq`: into a whole catalog buffer, a node writes the slots of
      its own regions and leaves the others as they are, in whatever order the
      hash map lists its entries.
    * `refresh_converges_iff`: after a refresh the peer sees the owner's regions
      if and only if nothing it has seen before has been removed. -/

namespace Mccl.Dmem

open Arrays

/-! ## Entries -/

structure RegionDirectoryEntry where
  local_addr : UInt64
  length : UInt64
  rkey : UInt32
  flags : UInt32
  epoch : UInt64
deriving DecidableEq, Repr

namespace RegionDirectoryEntry

def WIRE_SIZE : Nat := 8 + 8 + 4 + 4 + 8

instance : NeZero WIRE_SIZE := ⟨by decide⟩

/-- Byte `b` of what `serialize` writes. -/
def serialize (e : RegionDirectoryEntry) (b : Fin WIRE_SIZE) : UInt8 :=
  if b.val < 8 then byteAt e.local_addr.toNat b
  else if b.val < 16 then byteAt e.length.toNat (b - 8)
  else if b.val < 20 then byteAt e.rkey.toNat (b - 16)
  else if b.val < 24 then byteAt e.flags.toNat (b - 20)
  else byteAt e.epoch.toNat (b - 24)

def deserialize (buf : Fin WIRE_SIZE → UInt8) : RegionDirectoryEntry where
  local_addr := UInt64.ofNat (ofBytes 8 fun k => buf (Fin.ofNat _ k))
  length := UInt64.ofNat (ofBytes 8 fun k => buf (Fin.ofNat _ (8 + k)))
  rkey := UInt32.ofNat (ofBytes 4 fun k => buf (Fin.ofNat _ (16 + k)))
  flags := UInt32.ofNat (ofBytes 4 fun k => buf (Fin.ofNat _ (20 + k)))
  epoch := UInt64.ofNat (ofBytes 8 fun k => buf (Fin.ofNat _ (24 + k)))

theorem ofBytes_field {x n o : Nat} (buf : Fin WIRE_SIZE → UInt8) (hx : x < 256 ^ n)
    (ho : o + n ≤ WIRE_SIZE)
    (h : ∀ b : Fin WIRE_SIZE, o ≤ b → b < o + n → buf b = byteAt x (b - o)) :
    ofBytes n (fun k => buf (Fin.ofNat _ (o + k))) = x := by
  rw [← Nat.mod_eq_of_lt hx, ← ofBytes_byteAt]
  refine ofBytes_congr fun k hk => ?_
  have hval : (Fin.ofNat WIRE_SIZE (o + k)).val = o + k := Nat.mod_eq_of_lt (by omega)
  rw [h _ (by omega) (by omega), hval, Nat.add_sub_cancel_left]

theorem deserialize_serialize (e : RegionDirectoryEntry) : deserialize e.serialize = e := by
  have h8 (x : UInt64) : x.toNat < 256 ^ 8 := x.toNat_lt
  have h4 (x : UInt32) : x.toNat < 256 ^ 4 := x.toNat_lt
  have haddr := ofBytes_field (o := 0) e.serialize (h8 e.local_addr) (by decide) fun b h1 h2 => by
    rw [serialize, if_pos (by omega), Nat.sub_zero]
  have hlength := ofBytes_field (o := 8) e.serialize (h8 e.length) (by decide) fun b h1 h2 => by
    rw [serialize, if_neg (by omega), if_pos (by omega)]
  have hrkey := ofBytes_field (o := 16) e.serialize (h4 e.rkey) (by decide) fun b h1 h2 => by
    rw [serialize, if_neg (by omega), if_neg (by omega), if_pos (by omega)]
  have hflags := ofBytes_field (o := 20) e.serialize (h4 e.flags) (by decide) fun b h1 h2 => by
    rw [serialize, if_neg (by omega), if_neg (by omega), if_neg (by omega), if_pos (by omega)]
  have hepoch := ofBytes_field (o := 24) e.serialize (h8 e.epoch) (by decide) fun b h1 h2 => by
    rw [serialize, if_neg (by omega), if_neg (by omega), if_neg (by omega), if_neg (by omega)]
  simp only [Nat.zero_add] at haddr
  simp only [deserialize, haddr, hlength, hrkey, hflags, hepoch, UInt64.ofNat_toNat, UInt32.ofNat_toNat]

/-- The layout of an entry. -/
def wire : Codec RegionDirectoryEntry UInt8 where
  size := WIRE_SIZE
  size_pos := by decide
  enc := serialize
  dec := deserialize
  dec_enc := deserialize_serialize

end RegionDirectoryEntry

open RegionDirectoryEntry (WIRE_SIZE wire)

/-- A buffer of bytes. -/
abbrev Buffer := Unit × Nat → UInt8

/-- The entry that `deserialize(buf + i * WIRE_SIZE)` reads. -/
def slot (buf : Buffer) (i : Nat) : RegionDirectoryEntry := elem RegionDirectoryEntry.wire buf ((), 0) i

/-- `entry.serialize(buf + i * WIRE_SIZE)`. -/
def writeSlot (buf : Buffer) (i : Nat) (entry : RegionDirectoryEntry) : Buffer :=
  store RegionDirectoryEntry.wire buf ((), i * RegionDirectoryEntry.WIRE_SIZE) 1 fun _ => entry

/-- A buffer that has been allocated and not written. -/
def zeros : Buffer := fun _ => 0

theorem slot_writeSlot (buf : Buffer) (i j : Nat) (entry : RegionDirectoryEntry) :
    slot (writeSlot buf i entry) j = if j = i then entry else slot buf j := by
  have h := elem_store_offset (c := wire) buf ((), 0) i 1 j fun _ => entry
  simp only [Nat.zero_add] at h
  rw [slot, writeSlot, slot]
  refine h.trans ?_
  by_cases hj : j = i
  · simp [hj]
  · rw [if_neg (by omega), if_neg hj]

theorem slot_zeros (i : Nat) : (slot zeros i).length = 0 := by
  show UInt64.ofNat (ofBytes 8 fun _ => 0) = 0
  rw [ofBytes_zero]
  rfl

/-! ## Keys -/

def catalog_key (node_id : UInt16) (region_id : UInt32) : UInt64 :=
  (node_id.toUInt64 <<< 48) ||| (region_id.toUInt64 <<< 16)

/-- The node in a key, as `serialize_into` reads it. -/
def key_node (key : UInt64) : UInt16 := (key >>> 48).toUInt16

/-- The region in a key, as `serialize_into` reads it. -/
def key_region (key : UInt64) : UInt32 := ((key >>> 16) &&& 0xFFFFFFFF).toUInt32

theorem toNat_catalog_key (n : UInt16) (r : UInt32) :
    (catalog_key n r).toNat = n.toNat * 2 ^ 48 + r.toNat * 2 ^ 16 := by
  have hn := n.toNat_lt
  have hr := r.toNat_lt
  have hhigh : (n.toUInt64 <<< 48).toNat = n.toNat <<< 48 := by
    rw [UInt64.toNat_shiftLeft]
    simp only [UInt16.toNat_toUInt64, UInt64.reduceToNat, Nat.reduceMod, Nat.shiftLeft_eq]
    omega
  have hlow : (r.toUInt64 <<< 16).toNat = r.toNat * 2 ^ 16 := by
    rw [UInt64.toNat_shiftLeft]
    simp only [UInt32.toNat_toUInt64, UInt64.reduceToNat, Nat.reduceMod, Nat.shiftLeft_eq]
    omega
  rw [catalog_key, UInt64.toNat_or, hhigh, hlow, ← Nat.shiftLeft_add_eq_or_of_lt (by omega), Nat.shiftLeft_eq]

@[simp] theorem key_node_catalog_key (n : UInt16) (r : UInt32) : key_node (catalog_key n r) = n := by
  have hn := n.toNat_lt
  have hr := r.toNat_lt
  apply UInt16.toNat_inj.mp
  simp only [key_node, UInt64.toNat_toUInt16, UInt64.toNat_shiftRight, toNat_catalog_key,
    UInt64.reduceToNat, Nat.reduceMod, Nat.shiftRight_eq_div_pow]
  omega

@[simp] theorem key_region_catalog_key (n : UInt16) (r : UInt32) : key_region (catalog_key n r) = r := by
  have hn := n.toNat_lt
  have hr := r.toNat_lt
  apply UInt32.toNat_inj.mp
  have hmask (x : Nat) : x &&& 4294967295 = x % 2 ^ 32 := Nat.and_two_pow_sub_one_eq_mod x 32
  simp only [key_region, UInt64.toNat_toUInt32, UInt64.toNat_and, UInt64.toNat_shiftRight, toNat_catalog_key,
    UInt64.reduceToNat, Nat.reduceMod, Nat.shiftRight_eq_div_pow, hmask]
  omega

theorem catalog_key_injective {n n' : UInt16} {r r' : UInt32} (h : catalog_key n r = catalog_key n' r') :
    n = n' ∧ r = r' := by
  have hn := congrArg key_node h
  have hr := congrArg key_region h
  simp only [key_node_catalog_key, key_region_catalog_key] at hn hr
  exact ⟨hn, hr⟩

/-! ## The Catalog -/

/-- The entries by key. Every key is one of a node and a region. -/
structure MemoryCatalog where
  entries_ : Finmap fun _ : UInt64 => RegionDirectoryEntry
  packed : ∀ key ∈ entries_, ∃ node region, key = catalog_key node region

namespace MemoryCatalog

def MAX_REGIONS_PER_NODE : Nat := 256

def CATALOG_BUF_SIZE : Nat := MAX_REGIONS_PER_NODE * RegionDirectoryEntry.WIRE_SIZE

def empty : MemoryCatalog := ⟨∅, fun _ h => absurd h Finmap.notMem_empty⟩

def lookup (c : MemoryCatalog) (node_id : UInt16) (region_id : UInt32) : Option RegionDirectoryEntry :=
  c.entries_.lookup (catalog_key node_id region_id)

/-- `entries_[catalog_key(node, region)] = entry`. -/
def insert (c : MemoryCatalog) (node : UInt16) (region : UInt32) (entry : RegionDirectoryEntry) :
    MemoryCatalog where
  entries_ := c.entries_.insert (catalog_key node region) entry
  packed key h := (Finmap.mem_insert.mp h).elim (fun heq => ⟨node, region, heq⟩) (c.packed key)

/-- The node's own regions are kept under node id 0. -/
def upsert (c : MemoryCatalog) (region_id : UInt32) (entry : RegionDirectoryEntry) : MemoryCatalog :=
  c.insert 0 region_id entry

def remove (c : MemoryCatalog) (region_id : UInt32) : MemoryCatalog where
  entries_ := c.entries_.erase (catalog_key 0 region_id)
  packed key h := c.packed key (Finmap.mem_erase.mp h).2

/-- The region ids are the positions in the buffer, cut to 32 bits. -/
def deserialize_from (c : MemoryCatalog) (buf : Buffer) (len : Nat) (source_node : UInt16) : MemoryCatalog :=
  (List.range (len / RegionDirectoryEntry.WIRE_SIZE)).foldl
    (fun c i => c.insert source_node (UInt32.ofNat i) (slot buf i)) c

/-- The loop of `serialize_into` over the entries that are left, with the bytes
    written so far. -/
def serializeLoop (max_len : Nat) :
    List (Sigma fun _ : UInt64 => RegionDirectoryEntry) → Buffer → Nat → Buffer × Nat
  | [], buf, written => (buf, written)
  | ⟨key, entry⟩ :: rest, buf, written =>
    if key_node key ≠ 0 then serializeLoop max_len rest buf written
    else if MAX_REGIONS_PER_NODE ≤ (key_region key).toNat then serializeLoop max_len rest buf written
    else
      let offset := (key_region key).toNat * RegionDirectoryEntry.WIRE_SIZE
      if max_len < offset + RegionDirectoryEntry.WIRE_SIZE then (buf, written)
      else serializeLoop max_len rest (writeSlot buf (key_region key).toNat entry)
        (max written (offset + RegionDirectoryEntry.WIRE_SIZE))

/-- `order` lists the entries as the hash map iterates over them; the result is
    the buffer and the number of bytes that are returned. -/
def serialize_into (order : AList fun _ : UInt64 => RegionDirectoryEntry) (buf : Buffer) (max_len : Nat) :
    Buffer × Nat :=
  serializeLoop max_len order.entries buf 0

/-! ### Looking up -/

@[simp] theorem lookup_empty (n : UInt16) (r : UInt32) : empty.lookup n r = none :=
  Finmap.lookup_empty _

theorem lookup_insert (c : MemoryCatalog) (n n' : UInt16) (r r' : UInt32) (e : RegionDirectoryEntry) :
    (c.insert n r e).lookup n' r' = if n' = n ∧ r' = r then some e else c.lookup n' r' := by
  split
  case isTrue h =>
    rw [h.1, h.2]
    exact Finmap.lookup_insert _
  case isFalse h => exact Finmap.lookup_insert_of_ne _ fun heq => h (catalog_key_injective heq)

theorem lookup_upsert (c : MemoryCatalog) (n : UInt16) (r r' : UInt32) (e : RegionDirectoryEntry) :
    (c.upsert r e).lookup n r' = if n = 0 ∧ r' = r then some e else c.lookup n r' :=
  c.lookup_insert 0 n r r' e

theorem lookup_remove (c : MemoryCatalog) (n : UInt16) (r r' : UInt32) :
    (c.remove r).lookup n r' = if n = 0 ∧ r' = r then none else c.lookup n r' := by
  split
  case isTrue h =>
    rw [h.1, h.2]
    exact Finmap.lookup_erase _ _
  case isFalse h => exact Finmap.lookup_erase_ne fun heq => h (catalog_key_injective heq)

/-- The entry for region `r` in the first `count` slots; the last one if there
    are several. -/
def carried (buf : Buffer) (r : UInt32) : Nat → Option RegionDirectoryEntry
  | 0 => none
  | count + 1 => if UInt32.ofNat count = r then some (slot buf count) else carried buf r count

theorem carried_eq (buf : Buffer) (r : UInt32) {count : Nat} (h : count ≤ 2 ^ 32) :
    carried buf r count = if r.toNat < count then some (slot buf r.toNat) else none := by
  induction count with
  | zero => simp [carried]
  | succ count ih =>
    have hof : UInt32.ofNat count = r ↔ r.toNat = count := by
      rw [← UInt32.toNat_inj, UInt32.toNat_ofNat', Nat.mod_eq_of_lt (by omega), eq_comm]
    rw [carried, ih (by omega)]
    by_cases hr : r.toNat = count
    · rw [if_pos (hof.mpr hr), if_pos (by omega), hr]
    · rw [if_neg fun h => hr (hof.mp h)]
      simp only [Nat.lt_succ_iff_lt_or_eq, hr, or_false]

theorem lookup_deserialize_from (c : MemoryCatalog) (buf : Buffer) (len : Nat) (source n : UInt16)
    (r : UInt32) :
    (c.deserialize_from buf len source).lookup n r =
      if n = source then (carried buf r (len / WIRE_SIZE)).or (c.lookup n r)
      else c.lookup n r := by
  unfold deserialize_from
  induction len / WIRE_SIZE with
  | zero => simp [carried]
  | succ count ih =>
    rw [List.range_succ, List.foldl_append, List.foldl_cons, List.foldl_nil, lookup_insert, ih, carried]
    by_cases hn : n = source
    · by_cases hr : UInt32.ofNat count = r
      · simp [hn, hr]
      · simp [hn, hr, Ne.symm hr]
    · simp [hn]

/-! ### Serialising -/

/-- The buffer with the slots of the given entries written. -/
def overlay (entry : Nat → Option RegionDirectoryEntry) (buf : Buffer) : Buffer := fun x =>
  if x.2 < CATALOG_BUF_SIZE then
    match entry (x.2 / RegionDirectoryEntry.WIRE_SIZE) with
    | some e => e.serialize (Fin.ofNat _ x.2)
    | none => buf x
  else buf x

/-- The end of the last slot that has an entry. -/
def extent (entry : Nat → Option RegionDirectoryEntry) : Nat :=
  ((Finset.range MAX_REGIONS_PER_NODE).filter fun r => (entry r).isSome).sup
    fun r => (r + 1) * RegionDirectoryEntry.WIRE_SIZE

section overlay

variable {entry entry' : Nat → Option RegionDirectoryEntry} {buf : Buffer} {r : Nat} {e : RegionDirectoryEntry}

theorem slot_overlay {i : Nat} (hi : i < MAX_REGIONS_PER_NODE) :
    slot (overlay entry buf) i = (entry i).getD (slot buf i) := by
  have hdiv (b : Fin WIRE_SIZE) :
      (0 + (i * WIRE_SIZE + b)) / WIRE_SIZE = i := by
    have := b.isLt
    simp only [WIRE_SIZE] at this ⊢
    omega
  have hlt (b : Fin WIRE_SIZE) :
      0 + (i * WIRE_SIZE + b) < CATALOG_BUF_SIZE := by
    have := b.isLt
    simp only [WIRE_SIZE, CATALOG_BUF_SIZE, MAX_REGIONS_PER_NODE] at this hi ⊢
    omega
  have hslot (buf : Buffer) : slot buf i = RegionDirectoryEntry.deserialize
      fun b => buf ((), 0 + (i * WIRE_SIZE + b)) := rfl
  cases he : entry i with
  | none =>
    rw [Option.getD_none, hslot, hslot]
    congr 1
    funext b
    simp only [overlay, hlt b, hdiv b, he, if_true]
  | some e =>
    rw [Option.getD_some, hslot, ← e.deserialize_serialize]
    congr 1
    funext b
    have hb : Fin.ofNat WIRE_SIZE (0 + (i * WIRE_SIZE + b)) = b := by
      refine Fin.ext ?_
      change (0 + (i * WIRE_SIZE + b)) % WIRE_SIZE = b
      have := b.isLt
      simp only [WIRE_SIZE] at this ⊢
      omega
    simp only [overlay, hlt b, hdiv b, he, hb, if_true]

theorem overlay_congr (h : ∀ r < MAX_REGIONS_PER_NODE, entry r = entry' r) :
    overlay entry buf = overlay entry' buf := by
  funext x
  unfold overlay
  split
  case isTrue hx =>
    rw [h _ (by simp only [WIRE_SIZE, CATALOG_BUF_SIZE] at hx ⊢; omega)]
  case isFalse => rfl

theorem extent_congr (h : ∀ r < MAX_REGIONS_PER_NODE, entry r = entry' r) : extent entry = extent entry' := by
  unfold extent
  congr 1
  refine Finset.filter_congr fun r hr => ?_
  rw [h r (Finset.mem_range.mp hr)]

theorem overlay_writeSlot (hr : r < MAX_REGIONS_PER_NODE) (hnone : entry r = none) :
    overlay entry (writeSlot buf r e) = overlay (Function.update entry r (some e)) buf := by
  funext x
  have hframe (hx : x.2 / WIRE_SIZE ≠ r) : writeSlot buf r e x = buf x := by
    refine if_neg fun ⟨_, h1, h2⟩ => hx ?_
    simp only [wire, WIRE_SIZE] at h1 h2 ⊢
    omega
  unfold overlay
  split
  case isTrue hx =>
    by_cases hdiv : x.2 / WIRE_SIZE = r
    · simp only [hdiv, hnone, Function.update_self]
      have hmul : r * WIRE_SIZE ≤ x.2 ∧ x.2 < (r + 1) * WIRE_SIZE := by
        simp only [WIRE_SIZE] at hdiv ⊢
        omega
      have hin : x.1 = () ∧ r * WIRE_SIZE ≤ x.2 ∧
          x.2 < r * WIRE_SIZE + 1 * WIRE_SIZE :=
        ⟨rfl, hmul.1, by rw [← Nat.add_mul]; exact hmul.2⟩
      refine (if_pos hin).trans (congrArg e.serialize (Fin.ext ?_))
      change (x.2 - r * WIRE_SIZE) % WIRE_SIZE =
        x.2 % WIRE_SIZE
      simp only [WIRE_SIZE] at hmul ⊢
      omega
    · simp only [Function.update_of_ne hdiv, hframe hdiv]
  case isFalse hx =>
    refine hframe fun hdiv => hx ?_
    simp only [WIRE_SIZE, CATALOG_BUF_SIZE, MAX_REGIONS_PER_NODE] at hdiv hr ⊢
    omega

theorem extent_update (hr : r < MAX_REGIONS_PER_NODE) :
    extent (Function.update entry r (some e)) = max ((r + 1) * WIRE_SIZE) (extent entry) := by
  have hfilter : (Finset.range MAX_REGIONS_PER_NODE).filter (fun q => (Function.update entry r (some e) q).isSome) =
      Insert.insert r ((Finset.range MAX_REGIONS_PER_NODE).filter fun q => (entry q).isSome) := by
    ext q
    by_cases hq : q = r
    · simp [hq, hr]
    · simp [hq]
  rw [extent, hfilter, Finset.sup_insert]
  rfl

end overlay

/-- What a list of entries says about the node's own region `r`. -/
def own (l : List (Sigma fun _ : UInt64 => RegionDirectoryEntry)) (r : Nat) : Option RegionDirectoryEntry :=
  l.dlookup (catalog_key 0 (UInt32.ofNat r))

theorem serializeLoop_eq {max_len : Nat} (hmax : CATALOG_BUF_SIZE ≤ max_len)
    (l : List (Sigma fun _ : UInt64 => RegionDirectoryEntry)) (hl : l.NodupKeys)
    (hkeys : ∀ s ∈ l, ∃ node region, s.1 = catalog_key node region) (buf : Buffer) (written : Nat) :
    serializeLoop max_len l buf written = (overlay (own l) buf, max written (extent (own l))) := by
  induction l generalizing buf written with
  | nil =>
    have hempty : own [] = fun _ => none := rfl
    have hover : overlay (fun _ => none) buf = buf := by
      funext x
      simp [overlay]
    simp [serializeLoop, hempty, hover, extent]
  | cons s rest ih =>
    obtain ⟨key, e⟩ := s
    obtain ⟨n, r, hkey⟩ := hkeys ⟨key, e⟩ (List.mem_cons_self ..)
    obtain ⟨hnew, hrest⟩ := List.nodupKeys_cons.mp hl
    have ih := ih hrest fun s hs => hkeys s (List.mem_cons_of_mem _ hs)
    simp only at hkey hnew
    subst hkey
    rw [serializeLoop, key_node_catalog_key, key_region_catalog_key]
    -- an entry that is skipped is not one of the node's own regions
    have hskip (h : ∀ q < MAX_REGIONS_PER_NODE, catalog_key 0 (UInt32.ofNat q) ≠ catalog_key n r) :
        serializeLoop max_len rest buf written = (overlay (own (⟨catalog_key n r, e⟩ :: rest)) buf,
          max written (extent (own (⟨catalog_key n r, e⟩ :: rest)))) := by
      have hown : ∀ q < MAX_REGIONS_PER_NODE, own rest q = own (⟨catalog_key n r, e⟩ :: rest) q :=
        fun q hq => (List.dlookup_cons_ne _ _ (h q hq)).symm
      rw [ih, overlay_congr hown, extent_congr hown]
    by_cases hn : n = 0
    case neg =>
      rw [if_pos hn]
      exact hskip fun q _ heq => hn (catalog_key_injective heq).1.symm
    subst hn
    rw [if_neg (by simp)]
    by_cases hr : MAX_REGIONS_PER_NODE ≤ r.toNat
    case pos =>
      rw [if_pos hr]
      refine hskip fun q hq heq => ?_
      have hq' := (catalog_key_injective heq).2
      rw [← hq', UInt32.toNat_ofNat'] at hr
      have := Nat.mod_le q (2 ^ 32)
      omega
    rw [if_neg hr]
    have hown : ∀ q < MAX_REGIONS_PER_NODE, Function.update (own rest) r.toNat (some e) q =
        own (⟨catalog_key 0 r, e⟩ :: rest) q := by
      intro q hq
      by_cases hqr : q = r.toNat
      · subst hqr
        rw [Function.update_self, own, UInt32.ofNat_toNat, List.dlookup_cons_eq]
      · rw [Function.update_of_ne hqr, own, own, List.dlookup_cons_ne]
        intro heq
        have hq' := (catalog_key_injective heq).2
        rw [← hq', UInt32.toNat_ofNat'] at hqr
        simp only [MAX_REGIONS_PER_NODE] at hq
        omega
    have hnone : own rest r.toNat = none := by
      rw [own, UInt32.ofNat_toNat]
      exact List.dlookup_eq_none.mpr hnew
    have hfits : ¬ max_len < r.toNat * WIRE_SIZE + WIRE_SIZE := by
      simp only [CATALOG_BUF_SIZE, MAX_REGIONS_PER_NODE, WIRE_SIZE] at hmax hr ⊢
      omega
    simp only [if_neg hfits]
    rw [ih, overlay_writeSlot (by omega) hnone, overlay_congr hown, ← extent_congr hown,
      extent_update (by omega), ← max_assoc, Nat.succ_mul]

theorem serialize_into_eq (c : MemoryCatalog) {order : AList fun _ : UInt64 => RegionDirectoryEntry}
    (horder : order.toFinmap = c.entries_) (buf : Buffer) {max_len : Nat} (hmax : CATALOG_BUF_SIZE ≤ max_len) :
    serialize_into order buf max_len =
      (overlay (fun r => c.lookup 0 (UInt32.ofNat r)) buf, extent fun r => c.lookup 0 (UInt32.ofNat r)) := by
  have hown : own order.entries = fun r => c.lookup 0 (UInt32.ofNat r) := by
    funext r
    rw [lookup, ← horder, Finmap.lookup_toFinmap]
    rfl
  have hkeys : ∀ s ∈ order.entries, ∃ node region, s.1 = catalog_key node region := by
    intro s hs
    refine c.packed s.1 ?_
    rw [← horder]
    exact List.mem_keys_of_mem hs
  rw [serialize_into, serializeLoop_eq hmax order.entries order.nodupKeys hkeys, hown, Nat.zero_max]

theorem lt_extent_of_isSome {entry : Nat → Option RegionDirectoryEntry} {r : Nat}
    (hr : r < MAX_REGIONS_PER_NODE) (h : (entry r).isSome) :
    r < extent entry / WIRE_SIZE := by
  have hle : (r + 1) * WIRE_SIZE ≤ extent entry :=
    Finset.le_sup (f := fun r => (r + 1) * WIRE_SIZE) (by simp [hr, h])
  exact (Nat.le_div_iff_mul_le (by decide)).mpr hle

theorem extent_le (entry : Nat → Option RegionDirectoryEntry) : extent entry ≤ CATALOG_BUF_SIZE := by
  refine Finset.sup_le fun r hr => Nat.mul_le_mul_right _ ?_
  exact Finset.mem_range.mp (Finset.mem_filter.mp hr).1

end MemoryCatalog

/-! ## Replication -/

namespace Replication

open MemoryCatalog

/-- An owner, its catalog buffer and a peer. -/
structure State where
  owner : MemoryCatalog
  buf : Buffer
  peer : MemoryCatalog

inductive Act where
  | upsert (region_id : UInt32) (entry : RegionDirectoryEntry)
  | remove (region_id : UInt32)
  | refresh

/-- The owner has node id `node`. -/
inductive Step (node : UInt16) : State → Act → State → Prop where
  | upsert {s : State} (r : UInt32) (e : RegionDirectoryEntry) (h : r.toNat < MAX_REGIONS_PER_NODE) :
      Step node s (.upsert r e) { s with owner := s.owner.upsert r e }
  | remove {s : State} (r : UInt32) (h : r.toNat < MAX_REGIONS_PER_NODE) :
      Step node s (.remove r) { s with owner := s.owner.remove r }
  /-- The owner serialises into its buffer, and the peer applies the bytes written. -/
  | refresh {s : State} {buf : Buffer} {written : Nat} (order : AList fun _ : UInt64 => RegionDirectoryEntry)
      (horder : order.toFinmap = s.owner.entries_)
      (h : serialize_into order s.buf CATALOG_BUF_SIZE = (buf, written)) :
      Step node s .refresh
        { s with
          buf := buf
          peer := s.peer.deserialize_from buf written node }

def system (node : UInt16) : System State Act := ⟨fun s => s = ⟨.empty, zeros, .empty⟩, Step node⟩

/-- The peer sees an entry of positive length exactly for the regions in the
    owner's catalog, with equal fields. -/
def Converged (node : UInt16) (s : State) : Prop :=
  ∀ r e, s.peer.lookup node r = some e ∧ 0 < e.length ↔ s.owner.lookup 0 r = some e

structure Inv (node : UInt16) (s : State) : Prop where
  small : ∀ r e, s.owner.lookup 0 r = some e → r.toNat < MAX_REGIONS_PER_NODE
  /-- What the peer has seen is in the buffer. -/
  seen : ∀ r e, s.peer.lookup node r = some e →
    r.toNat < MAX_REGIONS_PER_NODE ∧ slot s.buf r.toNat = e
  /-- What is in the buffer, the peer has seen. -/
  shown : ∀ r : UInt32, r.toNat < MAX_REGIONS_PER_NODE → 0 < (slot s.buf r.toNat).length →
    s.peer.lookup node r = some (slot s.buf r.toNat)

/-- A refresh of which the peer has read the first `count` slots. -/
structure Refreshed (node : UInt16) (count : Nat) (s s' : State) : Prop where
  owner : s'.owner = s.owner
  slots : ∀ r : UInt32, r.toNat < MAX_REGIONS_PER_NODE →
    slot s'.buf r.toNat = (s.owner.lookup 0 r).getD (slot s.buf r.toNat)
  count_le : count ≤ MAX_REGIONS_PER_NODE
  /-- The regions of the owner are among these slots. -/
  covers : ∀ r e, s.owner.lookup 0 r = some e → r.toNat < MAX_REGIONS_PER_NODE → r.toNat < count
  peer : ∀ r, s'.peer.lookup node r =
    if r.toNat < count then some (slot s'.buf r.toNat) else s.peer.lookup node r

theorem exists_refreshed {node : UInt16} {s s' : State} (hs : Step node s .refresh s') :
    ∃ count, Refreshed node count s s' := by
  cases hs with
  | refresh order horder h =>
    rw [s.owner.serialize_into_eq horder s.buf (le_refl _), Prod.mk.injEq] at h
    obtain ⟨rfl, rfl⟩ := h
    refine ⟨extent (fun r => s.owner.lookup 0 (UInt32.ofNat r)) / WIRE_SIZE,
      rfl, fun r hr => ?_, ?_, fun r e hr hlt => lt_extent_of_isSome hlt ?_, fun r => ?_⟩
    · simp [slot_overlay hr]
    · exact Nat.div_le_of_le_mul (by simpa [CATALOG_BUF_SIZE, Nat.mul_comm] using extent_le _)
    · simp [hr]
    · rw [lookup_deserialize_from, if_pos rfl, carried_eq]
      · split <;> simp
      · exact (Nat.div_le_self _ _).trans ((extent_le _).trans (by decide))

section Refreshed

variable {node : UInt16} {count : Nat} {s s' : State} {r : UInt32} {e : RegionDirectoryEntry}

theorem Refreshed.peer_of_owner (h : Refreshed node count s s') (hr : r.toNat < MAX_REGIONS_PER_NODE)
    (he : s.owner.lookup 0 r = some e) : s'.peer.lookup node r = some e := by
  rw [h.peer, if_pos (h.covers r e he hr), h.slots r hr, he]
  rfl

theorem Refreshed.slot_of_none (h : Refreshed node count s s') (hr : r.toNat < MAX_REGIONS_PER_NODE)
    (he : s.owner.lookup 0 r = none) : slot s'.buf r.toNat = slot s.buf r.toNat := by
  rw [h.slots r hr, he]
  rfl

theorem Inv.refresh (h : Inv node s) (hs : Refreshed node count s s') : Inv node s' := by
  -- the peer has read every slot that the refresh has changed
  have hunread : ∀ r : UInt32, ¬ r.toNat < count → r.toNat < MAX_REGIONS_PER_NODE →
      s.owner.lookup 0 r = none := fun r hge hr =>
    Option.eq_none_iff_forall_not_mem.mpr fun e he => hge (hs.covers r e he hr)
  refine ⟨by rw [hs.owner]; exact h.small, fun r e he => ?_, fun r hr hpos => ?_⟩
  · rw [hs.peer] at he
    split at he
    case isTrue hlt => exact ⟨hlt.trans_le hs.count_le, Option.some.inj he⟩
    case isFalse hge =>
      obtain ⟨hr, hold⟩ := h.seen r e he
      exact ⟨hr, (hs.slot_of_none hr (hunread r hge hr)).trans hold⟩
  · rw [hs.peer]
    split
    case isTrue => rfl
    case isFalse hge =>
      rw [hs.slot_of_none hr (hunread r hge hr)] at hpos ⊢
      exact h.shown r hr hpos

end Refreshed

theorem Inv.step {node : UInt16} {s s' : State} {a : Act} (h : Inv node s) (hs : Step node s a s') :
    Inv node s' := by
  cases a with
  | upsert =>
    cases hs with | upsert r e hr => ?_
    refine ⟨fun r' e' he => ?_, h.seen, h.shown⟩
    rw [lookup_upsert] at he
    split at he
    case isTrue heq => rwa [heq.2]
    case isFalse => exact h.small r' e' he
  | remove =>
    cases hs with | remove r hr => ?_
    refine ⟨fun r' e' he => ?_, h.seen, h.shown⟩
    rw [lookup_remove] at he
    split at he
    case isTrue => cases he
    case isFalse => exact h.small r' e' he
  | refresh =>
    obtain ⟨count, hrefreshed⟩ := exists_refreshed hs
    exact h.refresh hrefreshed

theorem inv_of_reachable {node : UInt16} {s : State} (h : (system node).Reachable s) : Inv node s := by
  refine h.invariant ?_ fun _ _ _ hinv _ => hinv.step
  rintro _ rfl
  exact ⟨by simp, by simp, fun r _ hpos => absurd hpos (by simp [slot_zeros])⟩

/-- **Replication**: after a refresh the peer sees the owner's regions, with
    their fields, if and only if every region of the owner has a positive length
    and the owner still has every region that the peer has seen. -/
theorem refresh_converges_iff {node : UInt16} {s s' : State} (h : (system node).Reachable s)
    (hs : Step node s .refresh s') :
    Converged node s' ↔ (∀ r e, s.owner.lookup 0 r = some e → 0 < e.length) ∧
      ∀ r e, s.peer.lookup node r = some e → 0 < e.length → (s.owner.lookup 0 r).isSome := by
  have hinv := inv_of_reachable h
  obtain ⟨count, hrefreshed⟩ := exists_refreshed hs
  have hhave : ∀ r e, s.owner.lookup 0 r = some e → s'.peer.lookup node r = some e := fun r e he =>
    hrefreshed.peer_of_owner (hinv.small r e he) he
  -- of the regions that the owner lacks the peer sees what it saw before
  have hlack : ∀ r e, s.owner.lookup 0 r = none → 0 < e.length →
      (s'.peer.lookup node r = some e ↔ s.peer.lookup node r = some e) := by
    intro r e he hpos
    rw [hrefreshed.peer]
    split
    case isFalse => rfl
    case isTrue hlt =>
      have hr := hlt.trans_le hrefreshed.count_le
      rw [hrefreshed.slot_of_none hr he]
      constructor
      · intro hseen
        rw [← Option.some.inj hseen] at hpos ⊢
        exact hinv.shown r hr hpos
      · intro hseen
        rw [(hinv.seen r e hseen).2]
  unfold Converged
  rw [hrefreshed.owner]
  constructor
  · intro hconv
    refine ⟨fun r e he => ((hconv r e).mpr he).2, fun r e hseen hpos => ?_⟩
    cases he : s.owner.lookup 0 r with
    | some e' => rfl
    | none =>
      have := (hconv r e).mp ⟨(hlack r e he hpos).mpr hseen, hpos⟩
      rw [he] at this
      cases this
  · rintro ⟨hpos, hkept⟩ r e
    constructor
    · rintro ⟨hsees, hlen⟩
      cases he : s.owner.lookup 0 r with
      | some e' => rw [← hsees, hhave r e' he]
      | none =>
        have := hkept r e ((hlack r e he hlen).mp hsees) hlen
        rw [he] at this
        cases this
    · intro he
      exact ⟨hhave r e he, hpos r e he⟩

/-- A refresh is always possible. -/
theorem exists_refresh (node : UInt16) (s : State) : ∃ s', Step node s .refresh s' := by
  obtain ⟨order, horder⟩ : ∃ order : AList fun _ : UInt64 => RegionDirectoryEntry,
      order.toFinmap = s.owner.entries_ :=
    s.owner.entries_.induction_on fun order => ⟨order, rfl⟩
  exact ⟨_, .refresh order horder rfl⟩

/-- A region of 64 bytes. -/
def page : RegionDirectoryEntry := ⟨4096, 64, 7, 3, 1⟩

/-- The owner has registered region 1. -/
def registered : State := ⟨MemoryCatalog.empty.upsert 1 page, zeros, .empty⟩

theorem registered_reachable (node : UInt16) : (system node).Reachable registered :=
  .step (a := Act.upsert 1 page) (.init rfl) trivial (Step.upsert 1 page (by decide))

theorem registered_owner (r : UInt32) (e : RegionDirectoryEntry) :
    registered.owner.lookup 0 r = some e ↔ r = 1 ∧ e = page := by
  simp only [registered, lookup_upsert, true_and, lookup_empty]
  split <;> simp_all [eq_comm]

theorem refresh_converges_once : ∃ s, (system 3).Reachable s ∧ Converged 3 s ∧
    s.peer.lookup 3 1 = some page := by
  obtain ⟨s, hs⟩ := exists_refresh 3 registered
  have hconv : Converged 3 s := by
    refine (refresh_converges_iff (registered_reachable 3) hs).mpr ⟨fun r e he => ?_, by simp [registered]⟩
    rw [((registered_owner r e).mp he).2]
    decide
  obtain ⟨count, hrefreshed⟩ := exists_refreshed hs
  have howner : s.owner.lookup 0 1 = some page := by
    rw [hrefreshed.owner, registered_owner]
    exact ⟨rfl, rfl⟩
  exact ⟨s, .step (registered_reachable 3) trivial hs, hconv, ((hconv 1 page).mpr howner).1⟩

/-- The owner removes a region that the peer has seen. After the next refresh
    the peer sees it still. -/
theorem refresh_keeps_removed : ∃ s s', (system 3).Reachable s ∧ Step 3 s .refresh s' ∧
    s'.owner.lookup 0 1 = none ∧ s'.peer.lookup 3 1 = some page ∧ ¬ Converged 3 s' := by
  obtain ⟨s, hs⟩ := exists_refresh 3 registered
  obtain ⟨count, hrefreshed⟩ := exists_refreshed hs
  have hseen : s.peer.lookup 3 1 = some page :=
    hrefreshed.peer_of_owner (by decide) ((registered_owner 1 page).mpr ⟨rfl, rfl⟩)
  have hreach : (system 3).Reachable s := .step (registered_reachable 3) trivial hs
  have hremoved := hreach.next (.remove 1 (by decide))
  have hnone : (s.owner.remove 1).lookup 0 1 = none := by simp [lookup_remove]
  obtain ⟨s', hs'⟩ := exists_refresh 3 { s with owner := s.owner.remove 1 }
  obtain ⟨count', hrefreshed'⟩ := exists_refreshed hs'
  have howner' : s'.owner.lookup 0 1 = none := by rw [hrefreshed'.owner, hnone]
  -- the slot of the removed region is not cleared
  have hslot : slot s'.buf 1 = page :=
    (hrefreshed'.slot_of_none (r := 1) (by decide) hnone).trans ((inv_of_reachable hreach).seen 1 page hseen).2
  have hstill : s'.peer.lookup 3 1 = some page := by
    rw [hrefreshed'.peer]
    split
    · exact congrArg some hslot
    · exact hseen
  refine ⟨_, s', hremoved, hs', howner', hstill, fun hconv => ?_⟩
  have := (hconv 1 page).mp ⟨hstill, by decide⟩
  rw [howner'] at this
  cases this

end Replication

end Mccl.Dmem
