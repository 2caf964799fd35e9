import Mathlib.Data.List.TakeWhile
import Mccl.Dmem.Discovery

/-! # Serialising into Short Buffers

    `MemoryCatalog::serialize_into` leaves its loop at the first own region whose
    slot does not fit into the buffer. The hash map lists the entries in an order
    of its own.

    * `serialize_into_short`: what is written are the entries in front of the
      first one that does not fit.
    * `serialize_keeps_iff`: every entry that fits is written and recovered, in
      every order, if and only if all entries fit or none does.
    * `serialize_drops_fitting`: region 5 comes first and does not fit, and
      region 0, which would, is dropped. -/

namespace Mccl.Dmem.MemoryCatalog

/-! ## Leaving the Loop -/

/-- The slot of region `r` ends within the buffer. -/
def SlotFits (max_len : Nat) (r : UInt32) : Prop := (r.toNat + 1) * RegionDirectoryEntry.WIRE_SIZE ≤ max_len

instance (max_len : Nat) (r : UInt32) : Decidable (SlotFits max_len r) := Nat.decLe ..

/-- The loop goes on after this entry: it is skipped, or it fits. -/
def passes (max_len : Nat) (s : Sigma fun _ : UInt64 => RegionDirectoryEntry) : Bool :=
  key_node s.1 ≠ 0 ∨ MAX_REGIONS_PER_NODE ≤ (key_region s.1).toNat ∨ SlotFits max_len (key_region s.1)

variable {max_len : Nat} {n : UInt16} {r : UInt32} {e : RegionDirectoryEntry}

theorem passes_catalog_key : passes max_len ⟨catalog_key n r, e⟩ ↔
    n ≠ 0 ∨ MAX_REGIONS_PER_NODE ≤ r.toNat ∨ SlotFits max_len r := by
  simp [passes]

/-- A whole catalog buffer has room for every region that is not skipped. -/
theorem slotFits_of_lt (hr : r.toNat < MAX_REGIONS_PER_NODE) : SlotFits CATALOG_BUF_SIZE r :=
  Nat.mul_le_mul_right _ hr

theorem serializeLoop_takeWhile (l : List (Sigma fun _ : UInt64 => RegionDirectoryEntry)) (buf : Buffer)
    (written : Nat) :
    serializeLoop max_len l buf written =
      serializeLoop CATALOG_BUF_SIZE (l.takeWhile (passes max_len)) buf written := by
  induction l generalizing buf written with
  | nil => rfl
  | cons s l ih =>
    obtain ⟨key, e⟩ := s
    rw [List.takeWhile_cons]
    by_cases hnode : key_node key = 0
    case neg =>
      have hpass : passes max_len ⟨key, e⟩ := decide_eq_true (.inl hnode)
      rw [if_pos hpass, serializeLoop, serializeLoop, if_pos hnode, if_pos hnode]
      exact ih buf written
    have hown : ¬key_node key ≠ 0 := not_not.mpr hnode
    by_cases hregion : MAX_REGIONS_PER_NODE ≤ (key_region key).toNat
    case pos =>
      have hpass : passes max_len ⟨key, e⟩ := decide_eq_true (.inr (.inl hregion))
      rw [if_pos hpass, serializeLoop, serializeLoop, if_neg hown, if_neg hown, if_pos hregion, if_pos hregion]
      exact ih buf written
    have hend : (key_region key).toNat * RegionDirectoryEntry.WIRE_SIZE + RegionDirectoryEntry.WIRE_SIZE =
        ((key_region key).toNat + 1) * RegionDirectoryEntry.WIRE_SIZE := (Nat.succ_mul _ _).symm
    by_cases hfits : SlotFits max_len (key_region key)
    case pos =>
      have hpass : passes max_len ⟨key, e⟩ := decide_eq_true (.inr (.inr hfits))
      have hwhole := slotFits_of_lt (Nat.lt_of_not_le hregion)
      rw [if_pos hpass, serializeLoop, serializeLoop]
      simp only [if_neg hown, if_neg hregion, hend, if_neg (Nat.not_lt.mpr hfits),
        if_neg (Nat.not_lt.mpr hwhole)]
      exact ih _ _
    · -- `break`
      have hstop : ¬passes max_len ⟨key, e⟩ := by
        intro hpass
        rcases of_decide_eq_true hpass with h | h | h
        · exact h hnode
        · exact hregion h
        · exact hfits h
      rw [if_neg hstop, serializeLoop, serializeLoop]
      simp only [if_neg hown, if_neg hregion, hend, if_pos (Nat.lt_of_not_le hfits)]

/-! ## What Is Written -/

section Order

variable (c : MemoryCatalog) {order : AList fun _ : UInt64 => RegionDirectoryEntry}
  (horder : order.toFinmap = c.entries_)

include horder in
theorem packed_of_order : ∀ s ∈ order.entries, ∃ node region, s.1 = catalog_key node region := by
  intro s hs
  apply c.packed s.1
  rw [← horder]
  exact List.mem_keys_of_mem hs

include horder in
/-- The entries in front of the first one that does not fit. -/
theorem serialize_into_short (buf : Buffer) (max_len : Nat) :
    serialize_into order buf max_len =
      (overlay (own (order.entries.takeWhile (passes max_len))) buf,
        extent (own (order.entries.takeWhile (passes max_len)))) := by
  have hsub : (order.entries.takeWhile (passes max_len)).Sublist order.entries := List.takeWhile_sublist _
  have hnodup : (order.entries.takeWhile (passes max_len)).NodupKeys := order.nodupKeys.sublist hsub
  have hkeys := fun s hs => c.packed_of_order horder s (hsub.subset hs)
  rw [serialize_into, serializeLoop_takeWhile, serializeLoop_eq (le_refl _) _ hnodup hkeys, Nat.zero_max]

include horder in
/-- If every own region fits, the loop gets to the end. -/
theorem takeWhile_passes_eq (hfit : ∀ r e, c.lookup 0 r = some e → r.toNat < MAX_REGIONS_PER_NODE →
    SlotFits max_len r) : order.entries.takeWhile (passes max_len) = order.entries := by
  rw [List.takeWhile_eq_self_iff]
  intro s hs
  obtain ⟨key, e⟩ := s
  obtain ⟨n, r, hkey⟩ := c.packed_of_order horder _ hs
  dsimp only at hkey
  subst hkey
  rw [passes_catalog_key]
  by_cases hn : n = 0
  · subst hn
    have hlookup : c.lookup 0 r = some e := by
      rw [lookup, ← horder, Finmap.lookup_toFinmap]
      exact List.mem_dlookup order.nodupKeys hs
    by_cases hr : r.toNat < MAX_REGIONS_PER_NODE
    · exact .inr (.inr (hfit r e hlookup hr))
    · exact .inr (.inl (Nat.le_of_not_lt hr))
  · exact .inl hn

include horder in
theorem own_order (r : UInt32) : own order.entries r.toNat = c.lookup 0 r := by
  rw [own, UInt32.ofNat_toNat, lookup, ← horder, Finmap.lookup_toFinmap]
  rfl

/-- The hash map may list any entry first. -/
theorem exists_order_first {key : UInt64} (h : c.entries_.lookup key = some e) :
    ∃ (order : AList fun _ : UInt64 => RegionDirectoryEntry)
      (rest : List (Sigma fun _ : UInt64 => RegionDirectoryEntry)),
      order.toFinmap = c.entries_ ∧ order.entries = ⟨key, e⟩ :: rest := by
  obtain ⟨order, horder⟩ : ∃ order : AList fun _ : UInt64 => RegionDirectoryEntry,
      order.toFinmap = c.entries_ := c.entries_.induction_on fun order => ⟨order, rfl⟩
  refine ⟨order.insert key e, order.entries.kerase key, ?_, AList.entries_insert ..⟩
  rw [← Finmap.insert_toFinmap, horder]
  -- inserting what is there changes nothing
  apply Finmap.ext_lookup
  intro a
  by_cases ha : a = key
  · subst ha
    rw [Finmap.lookup_insert, h]
  · rw [Finmap.lookup_insert_of_ne _ ha]

end Order

/-! ## Round Trip -/

theorem lookup_deserialize_written {entry : Nat → Option RegionDirectoryEntry} (buf : Buffer)
    (hr : r.toNat < MAX_REGIONS_PER_NODE) (he : entry r.toNat = some e) (peer : MemoryCatalog) (source : UInt16) :
    Node.Written (overlay entry buf, extent entry) r e ∧
      (peer.deserialize_from (overlay entry buf) (extent entry) source).lookup source r = some e := by
  have hlt : r.toNat < extent entry / RegionDirectoryEntry.WIRE_SIZE :=
    lt_extent_of_isSome hr (Option.isSome_iff_exists.mpr ⟨e, he⟩)
  have hslot : slot (overlay entry buf) r.toNat = e := by rw [slot_overlay hr, he, Option.getD_some]
  have hcount : extent entry / RegionDirectoryEntry.WIRE_SIZE ≤ 2 ^ 32 :=
    (Nat.div_le_self _ _).trans ((extent_le entry).trans (by decide))
  refine ⟨⟨(Nat.le_div_iff_mul_le (by decide)).mp hlt, hslot⟩, ?_⟩
  rw [lookup_deserialize_from, if_pos rfl, carried_eq _ _ hcount, if_pos hlt, hslot, Option.some_or]

/-- Every own region that fits is written into a buffer of `max_len` bytes, and a
    peer that applies the bytes returned finds it, whatever the order of the entries,
    the buffer and the peer's catalog before. -/
def KeepsFitting (c : MemoryCatalog) (max_len : Nat) : Prop :=
  ∀ order : AList fun _ : UInt64 => RegionDirectoryEntry, order.toFinmap = c.entries_ →
    ∀ (buf : Buffer) (peer : MemoryCatalog) (source : UInt16) (r : UInt32) (e : RegionDirectoryEntry),
      c.lookup 0 r = some e → r.toNat < MAX_REGIONS_PER_NODE → SlotFits max_len r →
      Node.Written (serialize_into order buf max_len) r e ∧
        (peer.deserialize_from (serialize_into order buf max_len).1 (serialize_into order buf max_len).2
          source).lookup source r = some e

theorem keepsFitting_of_all {c : MemoryCatalog} (h : ∀ r e, c.lookup 0 r = some e →
    r.toNat < MAX_REGIONS_PER_NODE → SlotFits max_len r) : KeepsFitting c max_len := by
  intro order horder buf peer source r e he hr _
  rw [c.serialize_into_short horder, c.takeWhile_passes_eq horder h]
  exact lookup_deserialize_written buf hr ((c.own_order horder r).trans he) peer source

/-- A region that does not fit, if it comes first, keeps everything out. -/
theorem serialize_into_unfit_first {order : AList fun _ : UInt64 => RegionDirectoryEntry}
    {rest : List (Sigma fun _ : UInt64 => RegionDirectoryEntry)} (hr : r.toNat < MAX_REGIONS_PER_NODE)
    (hfits : ¬SlotFits max_len r) (h : order.entries = ⟨catalog_key 0 r, e⟩ :: rest) (buf : Buffer) :
    serialize_into order buf max_len = (buf, 0) := by
  have hend : max_len < r.toNat * RegionDirectoryEntry.WIRE_SIZE + RegionDirectoryEntry.WIRE_SIZE := by
    rw [← Nat.succ_mul]
    exact Nat.lt_of_not_le hfits
  rw [serialize_into, h, serializeLoop, key_node_catalog_key, key_region_catalog_key]
  simp only [ne_eq, not_true_eq_false, if_false, if_neg (Nat.not_le.mpr hr), if_pos hend]

/-- **Short buffers**: every own region that fits into the buffer is written and
    recovered, in every order of the entries, if and only if all own regions that
    have a slot fit or none of them does. -/
theorem serialize_keeps_iff (c : MemoryCatalog) (max_len : Nat) :
    KeepsFitting c max_len ↔
      (∀ r e, c.lookup 0 r = some e → r.toNat < MAX_REGIONS_PER_NODE → SlotFits max_len r) ∨
      ∀ r e, c.lookup 0 r = some e → r.toNat < MAX_REGIONS_PER_NODE → ¬SlotFits max_len r := by
  constructor
  · intro hkeeps
    by_contra hmixed
    push Not at hmixed
    obtain ⟨⟨r, e, he, hr, hunfit⟩, r', e', he', hr', hfits⟩ := hmixed
    -- the entry that does not fit may come first
    obtain ⟨order, rest, horder, hfirst⟩ := c.exists_order_first he
    have hfound := (hkeeps order horder zeros .empty 1 r' e' he' hr' hfits).2
    rw [serialize_into_unfit_first hr hunfit hfirst, lookup_deserialize_from, if_pos rfl, Nat.zero_div, carried,
      Option.none_or, lookup_empty] at hfound
    cases hfound
  · intro h
    rcases h with hall | hnone
    · exact keepsFitting_of_all hall
    · intro order _ buf peer source r e he hr hfits
      exact absurd hfits (hnone r e he hr)

/-- Regions 0 and 5. -/
def twoRegions : MemoryCatalog := (MemoryCatalog.empty.upsert 0 Replication.page).upsert 5 Replication.page

/-- There is room for region 0, and it is not written. -/
theorem serialize_drops_fitting : ∃ order : AList fun _ : UInt64 => RegionDirectoryEntry,
    order.toFinmap = twoRegions.entries_ ∧ twoRegions.lookup 0 0 = some Replication.page ∧ SlotFits 32 0 ∧
    serialize_into order zeros 32 = (zeros, 0) ∧
    (MemoryCatalog.empty.deserialize_from zeros 0 1).lookup 1 0 = none := by
  have hfive : twoRegions.lookup 0 5 = some Replication.page := by
    rw [twoRegions, lookup_upsert, if_pos ⟨rfl, rfl⟩]
  have hzero : twoRegions.lookup 0 0 = some Replication.page := by
    rw [twoRegions, lookup_upsert, if_neg (by decide), lookup_upsert, if_pos ⟨rfl, rfl⟩]
  obtain ⟨order, rest, horder, hfirst⟩ := twoRegions.exists_order_first hfive
  exact ⟨order, horder, hzero, by decide,
    serialize_into_unfit_first (by decide) (by decide) hfirst zeros, rfl⟩

end Mccl.Dmem.MemoryCatalog
