import Mccl.Distributed.TensorCollectives
import Mccl.Framework.Strides

/-! # Splitting a Tensor and Gathering It

    Model of `data_parallel_split` and `pipeline_parallel_split`
    (`distributed/sharding.py`) and of `DistributedTensor.all_gather`
    (`distributed/tensor.py`). A tensor is a strided
    view of a storage. `torch.chunk` gives views of the same storage, and
    `contiguous` and `to` copy only what is not yet contiguous or on the device.

    * `all_gather` puts a shard at its index times its own number of elements. This
      is where it belongs if the shards are equal and if the dimensions before the
      split one have size one.
    * A shard is registered from the start of its storage. For a view that is the
      start of the tensor that was split.
    * `gather_split_iff`: the round trip, for all tensors of a shape on a device,
      exactly if there is one shard or none of this applies.
    * `pipeline_split_concat`: the stages of a pipeline are all layers, in order. -/

namespace Mccl.Sharding

open Mccl.DistributedTensor (PeerRegions everyone)
open Strides (outer inner rowMajor)

variable {α : Type}

inductive Device where
  | cpu
  | mps
deriving DecidableEq

structure Tensor (α : Type) where
  device : Device
  /-- The memory from `storage().data_ptr()` on. -/
  storage : Nat → α
  storage_offset : Nat
  /-- `shape` and `stride()`. -/
  dims : Strides.Dims

namespace Tensor

def shape (t : Tensor α) : List Nat := t.dims.map Prod.fst

def numel (t : Tensor α) : Nat := Strides.numel t.dims

/-- The elements, as `view(-1)` has them for a contiguous tensor. -/
def flat (t : Tensor α) : List α := (Strides.addrs t.dims t.storage_offset).map t.storage

def is_contiguous (t : Tensor α) : Bool := t.numel = 0 ∨ (Strides.dense t.dims).isSome

/-- A tensor with a storage of its own. -/
def copyTo (t : Tensor α) (device : Device) : Tensor α where
  device := device
  storage i := t.flat.getD i (t.storage 0)
  storage_offset := 0
  dims := Strides.rowMajor t.shape

def contiguous (t : Tensor α) : Tensor α := if t.is_contiguous then t else t.copyTo t.device

/-- `to("mps")` of a contiguous tensor. -/
def toMps (t : Tensor α) : Tensor α := if t.device = .mps then t else t.copyTo .mps

def narrow (t : Tensor α) (dim start length : Nat) : Tensor α :=
  { t with
    storage_offset := t.storage_offset + start * Strides.stride t.dims dim
    dims := Strides.narrow t.dims dim length }

/-- The size of the pieces of `torch.chunk`. -/
def splitSize (size chunks : Nat) : Nat := (size + chunks - 1) / chunks

/-- The number of the pieces, which may be less than `chunks`. -/
def numSplits (size chunks : Nat) : Nat :=
  max ((size + splitSize size chunks - 1) / splitSize size chunks) 1

/-- The size of piece `i`: the last one has what is left. -/
def splitLength (size chunks i : Nat) : Nat := min (splitSize size chunks) (size - i * splitSize size chunks)

def chunk (t : Tensor α) (chunks dim : Nat) : List (Tensor α) :=
  let size := Strides.size t.dims dim
  (List.range (numSplits size chunks)).map fun i =>
    t.narrow dim (i * splitSize size chunks) (splitLength size chunks i)

end Tensor

structure DistributedTensor (α : Type) where
  /-- `_local`. -/
  tensor : Tensor α
  shard_index : Nat
  global_shape : List Nat
  node_id : Nat := 0

namespace DistributedTensor

/-- The registered memory: as many elements as the tensor has, from the start of its
    storage. -/
def region (d : DistributedTensor α) : List α := (List.range d.tensor.numel).map d.tensor.storage

/-- An entry of `peer_regions`, with the contents of the region. -/
structure Peer (α : Type) where
  node : Nat
  region : List α
  elements : Nat

/-- Overwrite part of a buffer; `none` if the part is not inside. -/
def writeAt (full : List α) (offset : Nat) (src : List α) : Option (List α) :=
  if offset + src.length ≤ full.length then
    some (full.take offset ++ src ++ full.drop (offset + src.length))
  else none

/-- The loop over the peers. Offsets and lengths are in elements. -/
def gatherLoop (my_node : Nat) : List (Peer α) → List α → Option (List α)
  | [], full => some full
  | peer :: rest, full =>
    if peer.node = my_node then gatherLoop my_node rest full
    -- `get` reads inside the region only
    else if peer.elements ≤ peer.region.length then
      match writeAt full (peer.node * peer.elements) (peer.region.take peer.elements) with
      | some full => gatherLoop my_node rest full
      | none => none
    else none

/-- The elements of the gathered tensor, which has the global shape. `full` is what
    `torch.empty` returns. -/
def all_gather (d : DistributedTensor α) (peer_regions : List (Peer α)) (full : List α) : Option (List α) :=
  match writeAt full (d.shard_index * d.tensor.numel) d.tensor.flat with
  | some full => gatherLoop d.node_id peer_regions full
  | none => none

end DistributedTensor

open Mccl.Sharding.DistributedTensor Mccl.Sharding.Tensor

/-- A dimension may be counted from the end. -/
def wrapDim (dim : Int) (ndim : Nat) : Option Nat :=
  if 0 ≤ dim ∧ dim < ndim then some dim.toNat
  else if -ndim ≤ dim ∧ dim < 0 then some (dim + ndim).toNat
  else none

/-- `none` if `torch.chunk` refuses the dimension, or `register_region` an empty
    shard. -/
def data_parallel_split (world_size : Nat) (t : Tensor α) (dim : Int) : Option (List (DistributedTensor α)) :=
  match wrapDim dim t.shape.length with
  | none => none
  | some dim =>
    let shards := (t.chunk world_size dim).map fun shard => shard.contiguous.toMps
    if shards.all fun shard => 0 < shard.numel then
      some (shards.mapIdx fun i shard => { tensor := shard, shard_index := i, global_shape := t.shape })
    else none

/-- What a node has in `peer_regions`: the other holders, with their regions and
    element counts. -/
def peersOf (shards : List (DistributedTensor α)) (nodes : List (Fin shards.length)) : List (Peer α) :=
  nodes.map fun p => ⟨p.val, shards[p].region, shards[p].tensor.numel⟩

/-- Splitting and gathering gives the tensor back, on every node that has a shard,
    whatever the order of its peers and the memory that it allocates. -/
def RoundTrips (world_size : Nat) (dim : Int) (t : Tensor α) : Prop :=
  ∀ shards, data_parallel_split world_size t dim = some shards →
    ∀ (me : Fin shards.length) (peer_regions : PeerRegions me) (full : List α), full.length = t.numel →
      all_gather { shards[me] with node_id := me.val } (peersOf shards peer_regions.nodes) full = some t.flat

/-! ## Tensors -/

namespace Tensor

theorem length_flat (t : Tensor α) : t.flat.length = t.numel := by
  simp [flat, numel]

theorem numel_eq_prod (t : Tensor α) : t.numel = t.shape.prod := rfl

theorem flat_copyTo (t : Tensor α) (device : Device) : (t.copyTo device).flat = t.flat := by
  have hlen : t.shape.prod = t.flat.length := by rw [length_flat, numel_eq_prod]
  unfold flat
  show (Strides.addrs (rowMajor t.shape) 0).map (fun i => t.flat.getD i (t.storage 0)) = t.flat
  rw [Strides.addrs_rowMajor, hlen]
  apply List.ext_getElem
  · simp
  · intro i h₁ h₂
    simp [List.getD_eq_getElem?_getD, h₂]

@[simp] theorem numel_copyTo (t : Tensor α) (device : Device) : (t.copyTo device).numel = t.numel :=
  Strides.numel_rowMajor t.shape

@[simp] theorem flat_contiguous (t : Tensor α) : t.contiguous.flat = t.flat := by
  unfold contiguous
  split
  · rfl
  · exact t.flat_copyTo _

@[simp] theorem flat_toMps (t : Tensor α) : t.toMps.flat = t.flat := by
  unfold toMps
  split
  · rfl
  · exact t.flat_copyTo _

@[simp] theorem numel_contiguous (t : Tensor α) : t.contiguous.numel = t.numel := by
  rw [← length_flat, ← length_flat, flat_contiguous]

@[simp] theorem numel_toMps (t : Tensor α) : t.toMps.numel = t.numel := by
  rw [← length_flat, ← length_flat, flat_toMps]

theorem device_contiguous (t : Tensor α) : t.contiguous.device = t.device := by
  unfold contiguous
  split <;> rfl

theorem storage_copyTo (t : Tensor α) (device : Device) :
    (List.range t.numel).map (t.copyTo device).storage = t.flat := by
  have hflat : (t.copyTo device).flat = (List.range t.numel).map (t.copyTo device).storage := by
    show (Strides.addrs (rowMajor t.shape) 0).map (t.copyTo device).storage = _
    rw [Strides.addrs_rowMajor, List.range_eq_range', numel_eq_prod]
  rw [← hflat, flat_copyTo]

/-! ## Chunks -/

section Chunks

variable {size chunks : Nat}

theorem splitSize_pos (hsize : 0 < size) (hchunks : 0 < chunks) : 0 < splitSize size chunks :=
  Nat.div_pos (by omega) hchunks

theorem splitSize_le (hsize : 0 < size) (hchunks : 0 < chunks) : splitSize size chunks ≤ size := by
  obtain ⟨a, rfl⟩ := Nat.exists_eq_succ_of_ne_zero hsize.ne'
  obtain ⟨b, rfl⟩ := Nat.exists_eq_succ_of_ne_zero hchunks.ne'
  apply Nat.div_le_of_le_mul
  have hmul : (b + 1) * (a + 1) = b * a + b + a + 1 := by ring
  show a + 1 + (b + 1) - 1 ≤ (b + 1) * (a + 1)
  omega

/-- The pieces begin inside the dimension, and the last one ends with it. -/
theorem numSplits_bounds (hsize : 0 < size) (hchunks : 0 < chunks) :
    (∀ i < numSplits size chunks, i * splitSize size chunks < size) ∧
      size ≤ numSplits size chunks * splitSize size chunks ∧ 0 < numSplits size chunks := by
  have hpos := splitSize_pos hsize hchunks
  have hdiv : 0 < (size + splitSize size chunks - 1) / splitSize size chunks := Nat.div_pos (by omega) hpos
  have hnum : numSplits size chunks = (size + splitSize size chunks - 1) / splitSize size chunks :=
    Nat.max_eq_left hdiv
  refine ⟨?_, ?_, hnum ▸ hdiv⟩
  · intro i hi
    rw [hnum] at hi
    have hle := Nat.mul_le_of_le_div _ _ _ hi
    rw [Nat.succ_mul] at hle
    omega
  · rw [hnum]
    have hlt := Nat.lt_div_mul_add hpos (a := size + splitSize size chunks - 1)
    omega

theorem splitLength_pos (hsize : 0 < size) (hchunks : 0 < chunks) {i : Nat} (hi : i < numSplits size chunks) :
    0 < splitLength size chunks i := by
  have hlt := (numSplits_bounds hsize hchunks).1 i hi
  have hpos := splitSize_pos hsize hchunks
  unfold splitLength
  omega

theorem numSplits_mul_of_dvd (hsize : 0 < size) (hchunks : 0 < chunks) (hdvd : splitSize size chunks ∣ size) :
    numSplits size chunks * splitSize size chunks = size ∧
      ∀ i < numSplits size chunks, splitLength size chunks i = splitSize size chunks := by
  obtain ⟨hin, hcover, hpos⟩ := numSplits_bounds hsize hchunks
  obtain ⟨q, hq⟩ := hdvd
  have hsplit := splitSize_pos hsize hchunks
  have hlast := hin (numSplits size chunks - 1) (Nat.sub_one_lt hpos.ne')
  have hnum : numSplits size chunks = q := by
    have hq' : size = q * splitSize size chunks := hq.trans (Nat.mul_comm ..)
    have hlt := Nat.lt_of_mul_lt_mul_right (Nat.lt_of_lt_of_eq hlast hq')
    have hle := Nat.le_of_mul_le_mul_right ((Nat.le_of_eq hq'.symm).trans hcover) hsplit
    omega
  have hmul : numSplits size chunks * splitSize size chunks = size := by
    rw [hnum, Nat.mul_comm]
    exact hq.symm
  refine ⟨hmul, ?_⟩
  intro i hi
  have hle : (i + 1) * splitSize size chunks ≤ size := (Nat.mul_le_mul_right _ hi).trans (Nat.le_of_eq hmul)
  rw [Nat.succ_mul] at hle
  unfold splitLength
  omega

/-- Unequal pieces, each at its index times its own size, stay off the end. -/
theorem mul_splitLength_lt (hsize : 0 < size) (hchunks : 0 < chunks) (hdvd : ¬splitSize size chunks ∣ size)
    {i : Nat} (hi : i < numSplits size chunks) : (i + 1) * splitLength size chunks i < size := by
  have hlt := (numSplits_bounds hsize hchunks).1 i hi
  have hle := splitSize_le hsize hchunks
  rcases Nat.lt_or_ge size ((i + 1) * splitSize size chunks) with hlast | hfull
  · -- the last piece is smaller than the others, of which there is at least one
    rw [Nat.succ_mul] at hlast
    have hlen : splitLength size chunks i = size - i * splitSize size chunks := by
      unfold splitLength
      omega
    have hipos : 0 < i := by
      rcases Nat.eq_zero_or_pos i with rfl | hipos
      · omega
      · exact hipos
    have hmul : i * (size - i * splitSize size chunks) < i * splitSize size chunks :=
      Nat.mul_lt_mul_of_pos_left (by omega) hipos
    rw [hlen, Nat.succ_mul]
    omega
  · have hne : (i + 1) * splitSize size chunks ≠ size := fun heq => hdvd ⟨i + 1, by rw [Nat.mul_comm, heq]⟩
    have hmul : (i + 1) * splitLength size chunks i ≤ (i + 1) * splitSize size chunks :=
      Nat.mul_le_mul_left _ (Nat.min_le_left ..)
    omega

end Chunks

end Tensor

/-! ## Writes to the Gathered Buffer -/

namespace DistributedTensor

variable {full out L : List α} {n my_node i : Nat} {peers : List (Peer α)} {d : DistributedTensor α}

theorem writeAt_some {src : List α} {offset : Nat} (h : writeAt full offset src = some out) :
    out.length = full.length ∧
      ∀ i, out[i]? = if offset ≤ i ∧ i < offset + src.length then src[i - offset]? else full[i]? := by
  unfold writeAt at h
  split at h
  · rename_i hle
    cases h
    constructor
    · simp only [List.length_append, List.length_take, List.length_drop]
      omega
    · intro i
      rw [List.append_assoc, List.getElem?_append, List.getElem?_append, List.length_take,
        Nat.min_eq_left (by omega)]
      by_cases hbefore : i < offset
      · rw [if_pos hbefore, if_neg (by omega), List.getElem?_take_of_lt hbefore]
      · rw [if_neg hbefore]
        by_cases hin : i < offset + src.length
        · rw [if_pos (by omega), if_pos ⟨by omega, hin⟩]
        · rw [if_neg (by omega), if_neg (by omega), List.getElem?_drop]
          congr 1
          omega
  · cases h

/-- A segment of a list, written where it belongs. -/
theorem writeAt_segment (hlen : full.length = L.length) {offset : Nat}
    (hle : offset + n ≤ L.length) :
    ∃ out, writeAt full offset ((L.drop offset).take n) = some out ∧ out.length = L.length ∧
      ∀ i, out[i]? = if offset ≤ i ∧ i < offset + n then L[i]? else full[i]? := by
  have hn : ((L.drop offset).take n).length = n := by
    rw [List.length_take, List.length_drop]
    omega
  have hsome : writeAt full offset ((L.drop offset).take n) = some _ := if_pos (by rw [hn, hlen]; exact hle)
  obtain ⟨hout, hget⟩ := writeAt_some hsome
  refine ⟨_, hsome, hout.trans hlen, ?_⟩
  intro i
  rw [hget, hn]
  by_cases hin : offset ≤ i ∧ i < offset + n
  · rw [if_pos hin, if_pos hin, List.getElem?_take_of_lt (by omega), List.getElem?_drop]
    congr 1
    omega
  · rw [if_neg hin, if_neg hin]

/-- The places that the entry of a peer is written to. -/
def Peer.Covers (peer : Peer α) (i : Nat) : Prop :=
  peer.node * peer.elements ≤ i ∧ i < peer.node * peer.elements + peer.elements

/-- Every peer's part is a segment of `L` in its place: what has been right stays
    right, and what the peers cover becomes right. -/
theorem gatherLoop_segments (hlen : full.length = L.length)
    (hpeers : ∀ peer ∈ peers, peer.node ≠ my_node → peer.node * peer.elements + peer.elements ≤ L.length ∧
      peer.region = (L.drop (peer.node * peer.elements)).take peer.elements) :
    ∃ out, gatherLoop my_node peers full = some out ∧ out.length = L.length ∧
      ∀ i, (full[i]? = L[i]? ∨ ∃ peer ∈ peers, peer.node ≠ my_node ∧ peer.Covers i) → out[i]? = L[i]? := by
  induction peers generalizing full with
  | nil =>
    refine ⟨full, rfl, hlen, ?_⟩
    intro i hi
    rcases hi with hi | ⟨peer, hmem, _⟩
    · exact hi
    · cases hmem
  | cons peer rest ih =>
    have hrest := (List.forall_mem_cons.mp hpeers).2
    unfold gatherLoop
    by_cases hme : peer.node = my_node
    · obtain ⟨out, hout, hlen', hright⟩ := ih hlen hrest
      rw [if_pos hme]
      refine ⟨out, hout, hlen', ?_⟩
      intro i hi
      apply hright
      rcases hi with hi | ⟨q, hq, hne, hcov⟩
      · exact .inl hi
      · rcases List.mem_cons.mp hq with heq | hq
        · exact absurd (heq ▸ hme) hne
        · exact .inr ⟨q, hq, hne, hcov⟩
    · obtain ⟨hle, hregion⟩ := hpeers peer List.mem_cons_self hme
      obtain ⟨next, hnext, hlen', hget⟩ := writeAt_segment hlen hle
      have hsize : peer.region.length = peer.elements := by
        rw [hregion, List.length_take, List.length_drop]
        omega
      obtain ⟨out, hout, hlen'', hright⟩ := ih hlen' hrest
      have htake : peer.region.take peer.elements = (L.drop (peer.node * peer.elements)).take peer.elements := by
        rw [List.take_of_length_le (Nat.le_of_eq hsize), hregion]
      rw [if_neg hme, if_pos (Nat.le_of_eq hsize.symm), htake, hnext]
      refine ⟨out, hout, hlen'', ?_⟩
      intro i hi
      apply hright
      by_cases hcov : peer.Covers i
      · exact .inl ((hget i).trans (if_pos hcov))
      · rcases hi with hi | ⟨q, hq, hne, hqcov⟩
        · exact .inl ((hget i).trans ((if_neg hcov).trans hi))
        · rcases List.mem_cons.mp hq with heq | hq
          · exact absurd (heq ▸ hqcov) hcov
          · exact .inr ⟨q, hq, hne, hqcov⟩

/-- What nobody covers stays as it was allocated. -/
theorem gatherLoop_frame
    (h : gatherLoop my_node peers full = some out) (hcov : ∀ peer ∈ peers, peer.node ≠ my_node → ¬peer.Covers i) :
    out[i]? = full[i]? := by
  induction peers generalizing full with
  | nil =>
    cases h
    rfl
  | cons peer rest ih =>
    have hrest := (List.forall_mem_cons.mp hcov).2
    unfold gatherLoop at h
    split at h
    · exact ih h hrest
    · rename_i hme
      split at h
      · rename_i hsize
        split at h
        · rename_i next hnext
          have hget := (writeAt_some hnext).2 i
          rw [List.length_take, Nat.min_eq_left hsize] at hget
          rw [ih h hrest, hget]
          exact if_neg (hcov peer List.mem_cons_self hme)
        · cases h
      · cases h

theorem gatherLoop_last {peer : Peer α}
    (h : gatherLoop my_node (peers ++ [peer]) full = some out) (hne : peer.node ≠ my_node) :
    peer.elements ≤ peer.region.length ∧
      ∃ before, writeAt before (peer.node * peer.elements) (peer.region.take peer.elements) = some out := by
  induction peers generalizing full with
  | nil =>
    simp only [List.nil_append, gatherLoop, if_neg hne] at h
    split at h
    · rename_i hle
      split at h
      · rename_i hsome
        exact ⟨hle, full, hsome.trans h⟩
      · cases h
    · cases h
  | cons q rest ih =>
    simp only [List.cons_append, gatherLoop] at h
    split at h
    · exact ih h
    · split at h
      · split at h
        · exact ih h
        · cases h
      · cases h

theorem getElem_shards {f : Nat → DistributedTensor α} (p : Fin ((List.range n).map f).length) :
    ((List.range n).map f)[p] = f p.val := by
  simp

theorem all_gather_segments {f : Nat → DistributedTensor α} (len : Nat) (hL : L.length = n * len)
    (hflat : ∀ p < n, (f p).tensor.flat = (L.drop (p * len)).take len) (hindex : ∀ p, (f p).shard_index = p)
    (me : Fin ((List.range n).map f).length)
    (hregion : ∀ p < n, p ≠ me.val → (f p).region = (f p).tensor.flat) (peer_regions : PeerRegions me)
    (hfull : full.length = L.length) :
    all_gather { ((List.range n).map f)[me] with node_id := me.val }
      (peersOf ((List.range n).map f) peer_regions.nodes) full = some L := by
  have hbound : ∀ p < n, p * len + len ≤ L.length := by
    intro p hp
    rw [hL, ← Nat.succ_mul]
    exact Nat.mul_le_mul_right _ hp
  have hnumel : ∀ p < n, (f p).tensor.numel = len := by
    intro p hp
    have hle := hbound p hp
    rw [← length_flat, hflat p hp, List.length_take, List.length_drop]
    omega
  have hlt : ∀ p : Fin ((List.range n).map f).length, p.val < n := by
    intro p
    simpa using p.isLt
  obtain ⟨mine, hmine, hlen, hget⟩ := writeAt_segment hfull (hbound me.val (hlt me))
  have hpeers : ∀ peer ∈ peersOf ((List.range n).map f) peer_regions.nodes, peer.node ≠ me.val →
      peer.node * peer.elements + peer.elements ≤ L.length ∧
        peer.region = (L.drop (peer.node * peer.elements)).take peer.elements := by
    intro peer hmem hne
    obtain ⟨p, _, rfl⟩ := List.mem_map.mp hmem
    dsimp only at hne ⊢
    rw [getElem_shards, hnumel p.val (hlt p), hregion p.val (hlt p) hne]
    exact ⟨hbound p.val (hlt p), hflat p.val (hlt p)⟩
  obtain ⟨out, hout, hlen', hright⟩ := gatherLoop_segments hlen hpeers
  have hresult : out = L := by
    apply List.ext_getElem?
    intro i
    rcases Nat.lt_or_ge i L.length with hi | hi
    · -- the place belongs to node `i / len`
      have hi' : i < len * n := by
        rw [Nat.mul_comm, ← hL]
        exact hi
      have hq : i / len < n := Nat.div_lt_of_lt_mul hi'
      have hlenpos : 0 < len := Nat.pos_of_mul_pos_right (Nat.zero_lt_of_lt hi')
      have hle := Nat.div_mul_le_self i len
      have hlt' := Nat.lt_div_mul_add hlenpos (a := i)
      apply hright
      by_cases hme : i / len = me.val
      · left
        rw [hget, if_pos ⟨hme ▸ hle, hme ▸ hlt'⟩]
      · right
        have hq' : i / len < ((List.range n).map f).length := by simpa using hq
        have hmem : (⟨i / len, hq'⟩ : Fin _) ∈ peer_regions.nodes :=
          peer_regions.complete _ fun heq => hme (congrArg Fin.val heq)
        refine ⟨_, List.mem_map_of_mem hmem, hme, ?_⟩
        unfold Peer.Covers
        dsimp only
        rw [getElem_shards, hnumel _ hq]
        exact ⟨hle, hlt'⟩
    · rw [List.getElem?_eq_none (by omega), List.getElem?_eq_none hi]
  unfold all_gather
  dsimp only
  rw [getElem_shards, hindex, hnumel me.val (hlt me), hflat me.val (hlt me), hmine]
  dsimp only
  rw [hout, hresult]

theorem all_gather_frame (h : all_gather d peers full = some out)
    (hme : ¬(d.shard_index * d.tensor.numel ≤ i ∧ i < d.shard_index * d.tensor.numel + d.tensor.numel))
    (hpeers : ∀ peer ∈ peers, peer.node ≠ d.node_id → ¬peer.Covers i) : out[i]? = full[i]? := by
  unfold all_gather at h
  split at h
  · rename_i mine hmine
    have hget := (writeAt_some hmine).2 i
    rw [length_flat, if_neg hme] at hget
    rw [gatherLoop_frame h hpeers, hget]
  · cases h

/-- What no peer covers is from the node's own shard, where that is. -/
theorem all_gather_own (h : all_gather d peers full = some out) (hi : i < d.tensor.numel)
    (hpeers : ∀ peer ∈ peers, peer.node ≠ d.node_id → ¬peer.Covers (d.shard_index * d.tensor.numel + i)) :
    out[d.shard_index * d.tensor.numel + i]? = d.tensor.flat[i]? := by
  unfold all_gather at h
  split at h
  · rename_i mine hmine
    have hget := (writeAt_some hmine).2 (d.shard_index * d.tensor.numel + i)
    rw [length_flat, if_pos ⟨by omega, by omega⟩, Nat.add_sub_cancel_left] at hget
    rw [gatherLoop_frame h hpeers, hget]
  · cases h

theorem all_gather_last {peer : Peer α}
    (h : all_gather d (peers ++ [peer]) full = some out) (hne : peer.node ≠ d.node_id) (hi : i < peer.elements) :
    out[peer.node * peer.elements + i]? = peer.region[i]? := by
  unfold all_gather at h
  split at h
  · obtain ⟨hle, before, hbefore⟩ := gatherLoop_last h hne
    have hget := (writeAt_some hbefore).2 (peer.node * peer.elements + i)
    rw [List.length_take, Nat.min_eq_left hle, if_pos ⟨by omega, by omega⟩, Nat.add_sub_cancel_left,
      List.getElem?_take_of_lt hi] at hget
    exact hget
  · cases h

end DistributedTensor

/-! ## The Shards -/

section Shards

variable {world_size : Nat} {t : Tensor α} {d : Nat} {dim : Int}

theorem wrapDim_lt {ndim : Nat} (h : wrapDim dim ndim = some d) : d < ndim := by
  unfold wrapDim at h
  split at h
  · cases h
    omega
  · split at h
    · cases h
      omega
    · cases h

/-- The size of the dimension that is split. -/
abbrev Tensor.sizeAt (t : Tensor α) (d : Nat) : Nat := Strides.size t.dims d

/-- The view that `torch.chunk` has at index `i`. -/
def Tensor.piece (world_size : Nat) (t : Tensor α) (d i : Nat) : Tensor α :=
  t.narrow d (i * Tensor.splitSize (t.sizeAt d) world_size) (Tensor.splitLength (t.sizeAt d) world_size i)

/-- The shard that `data_parallel_split` makes of it. -/
def shardOf (world_size : Nat) (t : Tensor α) (d i : Nat) : DistributedTensor α where
  tensor := (t.piece world_size d i).contiguous.toMps
  shard_index := i
  global_shape := t.shape

/-- A tensor of the dimensions can be split along `d`. -/
structure Splittable (world_size : Nat) (dim : Int) (dims : Strides.Dims) (d : Nat) : Prop where
  dim : wrapDim dim dims.length = some d
  world : 0 < world_size
  numel : 0 < Strides.numel dims

theorem Splittable.lt {dims : Strides.Dims} (h : Splittable world_size dim dims d) : d < dims.length := wrapDim_lt h.dim

theorem Splittable.pos {dims : Strides.Dims} (h : Splittable world_size dim dims d) :
    0 < outer dims d ∧ 0 < Strides.size dims d ∧ 0 < inner dims d := by
  have hpos := h.numel
  rw [Strides.numel_eq h.lt] at hpos
  have hleft := Nat.pos_of_mul_pos_right hpos
  exact ⟨Nat.pos_of_mul_pos_right hleft, Nat.pos_of_mul_pos_left hleft, Nat.pos_of_mul_pos_left hpos⟩

theorem split_eq {shards : List (DistributedTensor α)} (hd : wrapDim dim t.dims.length = some d)
    (h : data_parallel_split world_size t dim = some shards) :
    shards = (List.range (numSplits (t.sizeAt d) world_size)).map (shardOf world_size t d) := by
  have hlen : t.shape.length = t.dims.length := List.length_map ..
  unfold data_parallel_split at h
  rw [hlen, hd] at h
  dsimp only at h
  split at h
  · cases h
    apply List.ext_getElem
    · simp [Tensor.chunk]
    · intro i h₁ h₂
      simp [Tensor.chunk, shardOf, Tensor.piece]
  · cases h

@[simp] theorem numel_shardOf (i : Nat) :
    (shardOf world_size t d i).tensor.numel = (t.piece world_size d i).numel := by
  simp [shardOf]

@[simp] theorem flat_shardOf (i : Nat) :
    (shardOf world_size t d i).tensor.flat = (t.piece world_size d i).flat := by
  simp [shardOf]

theorem numel_piece (hd : d < t.dims.length) (i : Nat) :
    (t.piece world_size d i).numel =
      outer t.dims d * splitLength (t.sizeAt d) world_size i * inner t.dims d :=
  Strides.numel_narrow hd _

theorem split_some (h : Splittable world_size dim t.dims d) : data_parallel_split world_size t dim =
    some ((List.range (numSplits (t.sizeAt d) world_size)).map (shardOf world_size t d)) := by
  obtain ⟨houter, hsize, hinner⟩ := h.pos
  have hall : ((t.chunk world_size d).map fun shard => shard.contiguous.toMps).all fun shard => 0 < shard.numel := by
    rw [List.all_eq_true]
    intro shard hmem
    obtain ⟨view, hview, rfl⟩ := List.mem_map.mp hmem
    obtain ⟨i, hi, rfl⟩ := List.mem_map.mp hview
    have hlen := Tensor.splitLength_pos hsize h.world (List.mem_range.mp hi)
    rw [decide_eq_true_eq, Tensor.numel_toMps, Tensor.numel_contiguous]
    show 0 < (t.piece world_size d i).numel
    rw [numel_piece h.lt]
    exact Nat.mul_pos (Nat.mul_pos houter hlen) hinner
  have hsome : (data_parallel_split world_size t dim).isSome := by
    unfold data_parallel_split
    rw [Tensor.shape, List.length_map, h.dim]
    dsimp only
    rw [if_pos hall]
    rfl
  obtain ⟨shards, hshards⟩ := Option.isSome_iff_exists.mp hsome
  rw [hshards, split_eq h.dim hshards]

/-- The shards of a tensor that is not on the device are copies. -/
theorem region_shardOf (hdev : t.device ≠ .mps) (i : Nat) :
    (shardOf world_size t d i).region = (shardOf world_size t d i).tensor.flat := by
  have hcopy : (t.piece world_size d i).contiguous.toMps = (t.piece world_size d i).contiguous.copyTo .mps := by
    unfold Tensor.toMps
    rw [if_neg]
    rw [Tensor.device_contiguous]
    exact hdev
  unfold region shardOf
  dsimp only
  rw [hcopy, Tensor.numel_copyTo, Tensor.storage_copyTo, Tensor.flat_copyTo]

/-- A contiguous piece of a tensor on the device is registered from the start of the
    whole tensor's storage. -/
theorem region_view (hdev : t.device = .mps) {i : Nat} (hcont : (t.piece world_size d i).is_contiguous = true) :
    (shardOf world_size t d i).region =
      (List.range (shardOf world_size t d i).tensor.numel).map t.storage := by
  have hview : (t.piece world_size d i).contiguous.toMps = t.piece world_size d i := by
    unfold Tensor.contiguous
    rw [if_pos hcont]
    exact if_pos hdev
  unfold region shardOf
  dsimp only
  rw [hview]
  rfl

/-- The elements of a part of a dimension. -/
theorem flat_narrow (hd : d < t.dims.length) (houter : outer t.dims d = 1) {start length : Nat}
    (hle : start + length ≤ t.sizeAt d) :
    (t.narrow d start length).flat =
      (t.flat.drop (start * inner t.dims d)).take (length * inner t.dims d) := by
  unfold Tensor.flat Tensor.narrow
  dsimp only
  rw [Strides.addrs_narrow hd houter hle, List.map_take, List.map_drop]

end Shards

/-! ## The Round Trip -/

section RoundTrip

variable {world_size : Nat} {t : Tensor α} {d : Nat} {dim : Int}

/-- Equal shards of a tensor that is copied to the device, along its first dimension
    that is not of size one. -/
theorem roundTrips_of_dvd (h : Splittable world_size dim t.dims d) (houter : outer t.dims d = 1)
    (hdvd : splitSize (t.sizeAt d) world_size ∣ t.sizeAt d) (hdev : t.device ≠ .mps) :
    RoundTrips world_size dim t := by
  intro shards hshards me peer_regions full hfull
  obtain rfl := split_eq h.dim hshards
  have hnumel : t.numel = 1 * t.sizeAt d * inner t.dims d := houter ▸ Strides.numel_eq h.lt
  obtain ⟨hmul, hlength⟩ := numSplits_mul_of_dvd h.pos.2.1 h.world hdvd
  apply all_gather_segments (splitSize (t.sizeAt d) world_size * inner t.dims d)
  · rw [length_flat, hnumel, Nat.one_mul, ← Nat.mul_assoc, hmul]
  · intro p hp
    have hle : p * splitSize (t.sizeAt d) world_size + splitSize (t.sizeAt d) world_size ≤ t.sizeAt d := by
      rw [← Nat.succ_mul]
      exact (Nat.mul_le_mul_right _ hp).trans (Nat.le_of_eq hmul)
    rw [flat_shardOf, Tensor.piece, hlength p hp, flat_narrow h.lt houter hle, Nat.mul_assoc]
  · intro p
    rfl
  · intro p _ _
    exact region_shardOf hdev p
  · rw [hfull, length_flat]

theorem roundTrips_of_one (h : Splittable world_size dim t.dims d)
    (hone : numSplits (t.sizeAt d) world_size = 1) : RoundTrips world_size dim t := by
  intro shards hshards me peer_regions full hfull
  obtain rfl := split_eq h.dim hshards
  have hcover := (numSplits_bounds (show 0 < t.sizeAt d from h.pos.2.1) h.world).2.1
  rw [hone, Nat.one_mul] at hcover
  -- the only piece is the tensor
  have hpiece : t.piece world_size d 0 = t := by
    have hlength : splitLength (t.sizeAt d) world_size 0 = t.sizeAt d := by
      unfold splitLength
      omega
    unfold Tensor.piece Tensor.narrow
    rw [hlength, Strides.narrow_size, Nat.zero_mul, Nat.zero_mul, Nat.add_zero]
  apply all_gather_segments t.numel
  · rw [hone, Nat.one_mul, length_flat]
  · intro p hp
    obtain rfl : p = 0 := by omega
    rw [flat_shardOf, hpiece, Nat.zero_mul, List.drop_zero, ← length_flat, List.take_length]
  · intro p
    rfl
  · intro p hp hne
    have hme : me.val < 1 := by simpa [hone] using me.isLt
    omega
  · rw [hfull, length_flat]

end RoundTrip

/-! ## Tensors that Do Not Come Back -/

section Failures

variable {world_size : Nat} {d : Nat} {dim : Int} {device : Device} {shape : List Nat}

/-- A tensor that is alone in its storage. -/
def plain (device : Device) (shape : List Nat) (storage : Nat → α) : Tensor α :=
  ⟨device, storage, 0, Strides.rowMajor shape⟩

theorem shape_plain (storage : Nat → α) : (plain device shape storage).shape = shape := Strides.map_fst_rowMajor shape

theorem numel_plain (storage : Nat → α) : (plain device shape storage).numel = shape.prod :=
  Strides.numel_rowMajor shape

theorem getElem?_flat_plain (storage : Nat → α) {i : Nat} (hi : i < shape.prod) :
    (plain device shape storage).flat[i]? = some (storage i) := by
  unfold Tensor.flat plain
  dsimp only
  rw [Strides.addrs_rowMajor, ← List.range_eq_range']
  simp [hi]

/-- The size of a dimension of a plain tensor. -/
abbrev dimSize (shape : List Nat) (d : Nat) : Nat := Strides.size (Strides.rowMajor shape) d

/-- The peers by their numbers, for the shards `f 0`, ..., `f (n - 1)`. -/
abbrev entries (f : Nat → DistributedTensor α) (nodes : List Nat) : List (Peer α) :=
  nodes.map fun p => ⟨p, (f p).region, (f p).tensor.numel⟩

theorem RoundTrips.gather_zero {t : Tensor α} {f : Nat → DistributedTensor α} {n : Nat}
    (h : RoundTrips world_size dim t) (hsplit : data_parallel_split world_size t dim = some ((List.range n).map f))
    (hid : (f 0).node_id = 0) (hn : 0 < n) {nodes : List Nat} (hnodup : nodes.Nodup)
    (hnodes : ∀ p, p ∈ nodes ↔ p < n) (full : List α) (hfull : full.length = t.numel) :
    all_gather (f 0) (entries f nodes) full = some t.flat := by
  have hlen : ((List.range n).map f).length = n := by simp
  have hlt : ∀ p ∈ nodes, p < ((List.range n).map f).length := by
    intro p hp
    rw [hlen]
    exact (hnodes p).mp hp
  let me : Fin ((List.range n).map f).length := ⟨0, by rw [hlen]; exact hn⟩
  let peer_regions : PeerRegions me :=
    { nodes := nodes.pmap Fin.mk hlt
      nodup := hnodup.pmap fun _ _ _ _ heq => congrArg Fin.val heq
      complete := fun p _ => List.mem_pmap.mpr ⟨p.val, (hnodes p.val).mpr (by simpa using p.isLt), rfl⟩ }
  have hpeers : peersOf ((List.range n).map f) peer_regions.nodes = entries f nodes := by
    show (nodes.pmap Fin.mk hlt).map _ = _
    simp only [getElem_shards]
    rw [List.map_pmap]
    dsimp only
    exact List.pmap_eq_map ..
  have hme : ∀ d : DistributedTensor α, d.node_id = 0 → ({ d with node_id := 0 } : DistributedTensor α) = d := by
    intro d hd
    cases d
    cases hd
    rfl
  have hrun := h _ hsplit me peer_regions full hfull
  rw [hpeers, getElem_shards] at hrun
  have hsame := hme (f 0) hid
  change all_gather { f 0 with node_id := 0 } _ full = _ at hrun
  rw [hsame] at hrun
  exact hrun

/-- The same for a tensor that is alone in its storage, over memory that holds `x`. -/
theorem gather_plain {storage : Nat → α} (hs : Splittable world_size dim (rowMajor shape) d)
    (h : RoundTrips world_size dim (plain device shape storage)) {nodes : List Nat}
    (hnodes : nodes.Perm (List.range (numSplits (dimSize shape d) world_size))) (x : α) :
    all_gather (shardOf world_size (plain device shape storage) d 0)
      (entries (shardOf world_size (plain device shape storage) d) nodes) (List.replicate shape.prod x) =
        some (plain device shape storage).flat := by
  refine h.gather_zero (split_some hs) rfl (numSplits_bounds hs.pos.2.1 hs.world).2.2
    (hnodes.nodup_iff.mpr List.nodup_range) (fun p => hnodes.mem_iff.trans List.mem_range) _ ?_
  rw [List.length_replicate, numel_plain]

/-- With unequal shards nobody writes the last element. -/
theorem dvd_of_roundTrips [Nontrivial α] (hs : Splittable world_size dim (rowMajor shape) d)
    (h : ∀ storage : Nat → α, RoundTrips world_size dim (plain device shape storage)) :
    splitSize (dimSize shape d) world_size ∣ dimSize shape d := by
  by_contra hdvd
  obtain ⟨x, y, hxy⟩ := exists_pair_ne α
  obtain ⟨houter, hsize, hinner⟩ := hs.pos
  have hrun := gather_plain hs (h fun _ => x) (.refl _) y
  -- the part of node `p` ends before
  have hend : ∀ p < numSplits (dimSize shape d) world_size,
      p * (shardOf world_size (plain device shape fun _ => x) d p).tensor.numel +
        (shardOf world_size (plain device shape fun _ => x) d p).tensor.numel < shape.prod := by
    intro p hp
    have hlt := Tensor.mul_splitLength_lt hsize hs.world hdvd hp
    rw [numel_shardOf, numel_piece (t := plain device shape fun _ => x) hs.lt, ← Strides.numel_rowMajor shape,
      Strides.numel_eq hs.lt]
    show p * (outer (rowMajor shape) d * splitLength (dimSize shape d) world_size p * inner (rowMajor shape) d) +
      outer (rowMajor shape) d * splitLength (dimSize shape d) world_size p * inner (rowMajor shape) d < _
    generalize splitLength (dimSize shape d) world_size p = len at hlt
    calc p * (outer (rowMajor shape) d * len * inner (rowMajor shape) d) +
          outer (rowMajor shape) d * len * inner (rowMajor shape) d
        = outer (rowMajor shape) d * ((p + 1) * len) * inner (rowMajor shape) d := by ring
      _ < outer (rowMajor shape) d * dimSize shape d * inner (rowMajor shape) d :=
          Nat.mul_lt_mul_of_pos_right (Nat.mul_lt_mul_of_pos_left hlt houter) hinner
  have hlast : shape.prod - 1 < shape.prod := Nat.sub_one_lt (Strides.numel_rowMajor shape ▸ hs.numel.ne')
  have hkeep := all_gather_frame (i := shape.prod - 1) hrun
    (by
      have hmine := hend 0 (numSplits_bounds hsize hs.world).2.2
      show ¬(0 * _ ≤ _ ∧ _ < 0 * _ + _)
      omega)
    (by
      intro peer hmem _
      obtain ⟨p, hp, rfl⟩ := List.mem_map.mp hmem
      have hpeer := hend p (List.mem_range.mp hp)
      unfold Peer.Covers
      dsimp only
      omega)
  rw [getElem?_flat_plain _ hlast, List.getElem?_replicate, if_pos hlast] at hkeep
  exact hxy (Option.some.inj hkeep)

/-- Two addresses that no storage tells apart are equal. -/
theorem eq_of_storage [Nontrivial α] {a b : Nat} (hab : ∀ storage : Nat → α, storage a = storage b) : a = b := by
  by_contra hne
  obtain ⟨x, y, hxy⟩ := exists_pair_ne α
  have heq := hab fun i => if i = b then x else y
  simp only [if_neg hne, if_true] at heq
  exact hxy heq.symm

theorem eq_one_of_extent {outer split inner size : Nat} (houter : 0 < outer) (hsplit : 0 < split)
    (hinner : 0 < inner) (hlt : split < size)
    (h : outer * split * inner - 1 + (size - split) * inner = outer * size * inner - 1) : outer = 1 := by
  obtain ⟨r, rfl⟩ := Nat.exists_eq_add_of_lt hlt
  have hmul : outer * (split + r + 1) * inner = outer * split * inner + outer * ((r + 1) * inner) := by ring
  have hpos : 0 < outer * split * inner := Nat.mul_pos (Nat.mul_pos houter hsplit) hinner
  have hrest : split + r + 1 - split = r + 1 := by omega
  have hblock : 0 < (r + 1) * inner := Nat.mul_pos (Nat.succ_pos r) hinner
  rw [hmul, hrest] at h
  apply Nat.eq_of_mul_eq_mul_right hblock
  omega

/-- There are several shards, and they are equal. -/
structure EqualShards (world_size : Nat) (dim : Int) (shape : List Nat) (d : Nat) : Prop
    extends Splittable world_size dim (rowMajor shape) d where
  dvd : splitSize (dimSize shape d) world_size ∣ dimSize shape d
  many : 1 < numSplits (dimSize shape d) world_size

/-- The dimensions of each of them, and the number of elements. -/
abbrev shardDims (world_size : Nat) (shape : List Nat) (d : Nat) : Strides.Dims :=
  Strides.narrow (rowMajor shape) d (splitSize (dimSize shape d) world_size)

abbrev shardSize (world_size : Nat) (shape : List Nat) (d : Nat) : Nat :=
  outer (rowMajor shape) d * splitSize (dimSize shape d) world_size * inner (rowMajor shape) d

namespace EqualShards

variable (hs : EqualShards world_size dim shape d)

include hs

theorem dim_pos : 0 < dimSize shape d := hs.pos.2.1

theorem splitLength_eq {p : Nat} (hp : p < numSplits (dimSize shape d) world_size) :
    splitLength (dimSize shape d) world_size p = splitSize (dimSize shape d) world_size :=
  (numSplits_mul_of_dvd hs.dim_pos hs.world hs.dvd).2 p hp

theorem numel_eq {p : Nat} (hp : p < numSplits (dimSize shape d) world_size) (device : Device) (storage : Nat → α) :
    (shardOf world_size (plain device shape storage) d p).tensor.numel = shardSize world_size shape d := by
  rw [numel_shardOf, numel_piece (t := plain device shape storage) hs.lt]
  show outer (rowMajor shape) d * splitLength (dimSize shape d) world_size p * inner (rowMajor shape) d = _
  rw [hs.splitLength_eq hp]

theorem splitSize_lt : splitSize (dimSize shape d) world_size < dimSize shape d := by
  have hper := splitSize_pos hs.dim_pos hs.world
  have htwo := Nat.mul_le_mul_right (splitSize (dimSize shape d) world_size) hs.many
  have hmul := (numSplits_mul_of_dvd hs.dim_pos hs.world hs.dvd).1
  omega

theorem size_lt : shardSize world_size shape d < shape.prod := by
  obtain ⟨houter, -, hinner⟩ := hs.pos
  rw [← Strides.numel_rowMajor shape, Strides.numel_eq hs.lt]
  exact Nat.mul_lt_mul_of_pos_right (Nat.mul_lt_mul_of_pos_left hs.splitSize_lt houter) hinner

theorem size_pos : 0 < shardSize world_size shape d := by
  obtain ⟨houter, hsize, hinner⟩ := hs.pos
  exact Nat.mul_pos (Nat.mul_pos houter (splitSize_pos hsize hs.world)) hinner

theorem first : 0 < numSplits (dimSize shape d) world_size := Nat.zero_lt_of_lt hs.many

theorem last_first_shard (device : Device) (storage : Nat → α) :
    (shardOf world_size (plain device shape storage) d 0).tensor.flat[shardSize world_size shape d - 1]? =
      some (storage (Strides.extent (shardDims world_size shape d))) := by
  have hnumel := hs.numel_eq hs.first device storage
  have hpiece : (plain device shape storage).piece world_size d 0 =
      ⟨device, storage, 0, shardDims world_size shape d⟩ := by
    unfold Tensor.piece Tensor.narrow
    rw [show splitLength ((plain device shape storage).sizeAt d) world_size 0 = _ from hs.splitLength_eq hs.first,
      Nat.zero_mul, Nat.zero_mul]
    rfl
  have hpos : 0 < Strides.numel (shardDims world_size shape d) := by
    rw [Strides.numel_narrow hs.lt]
    exact hs.size_pos
  rw [← hnumel, ← length_flat, ← List.getLast?_eq_getElem?, flat_shardOf, hpiece]
  unfold Tensor.flat
  rw [List.getLast?_map, Strides.getLast?_addrs hpos, Nat.zero_add]
  rfl

variable [Nontrivial α] (h : ∀ storage : Nat → α, RoundTrips world_size dim (plain device shape storage))

include h

/-- It goes where the shard ends. -/
theorem extent_first_shard : Strides.extent (shardDims world_size shape d) = shardSize world_size shape d - 1 := by
  have hlen := hs.size_pos
  apply eq_of_storage (α := α)
  intro storage
  have hrun := gather_plain hs.toSplittable (h storage) (.refl _) (storage 0)
  have hown := all_gather_own (i := shardSize world_size shape d - 1) hrun
    (by rw [hs.numel_eq hs.first]; omega) (by
    intro peer hmem hne
    obtain ⟨p, hp, rfl⟩ := List.mem_map.mp hmem
    have hp1 : 1 ≤ p := Nat.pos_of_ne_zero hne
    have hle := Nat.mul_le_mul_right (shardSize world_size shape d) hp1
    unfold Peer.Covers
    dsimp only
    rw [hs.numel_eq (List.mem_range.mp hp) device storage]
    show ¬(_ ≤ 0 * _ + _ ∧ _)
    omega)
  have hin : shardSize world_size shape d - 1 < shape.prod := by
    have hlt := hs.size_lt
    omega
  rw [hs.last_first_shard] at hown
  change (plain device shape storage).flat[0 * _ + _]? = _ at hown
  rw [Nat.zero_mul, Nat.zero_add, getElem?_flat_plain _ hin] at hown
  exact (Option.some.inj hown).symm

/-- With another dimension before the split one that is not where it belongs. -/
theorem outer_of_roundTrips : outer (rowMajor shape) d = 1 := by
  obtain ⟨houter, hsize, hinner⟩ := hs.pos
  have hper := splitSize_pos hsize hs.world
  have hextent := Strides.extent_narrow hs.lt hper hs.splitSize_lt.le
  have hlt : d < shape.length := by
    rw [← Strides.map_fst_rowMajor shape, List.length_map]
    exact hs.lt
  rw [hs.extent_first_shard h, Strides.extent_rowMajor (Strides.numel_rowMajor shape ▸ hs.numel),
    ← Strides.numel_rowMajor shape, Strides.numel_eq hs.lt, Strides.stride_rowMajor hlt] at hextent
  exact eq_one_of_extent houter hper hinner hs.splitSize_lt hextent

/-- The second shard of a tensor on the device is a view of its storage, and what is
    registered is the start of that. -/
theorem device_of_roundTrips : device ≠ .mps := by
  intro hmps
  have houter := hs.outer_of_roundTrips h
  subst hmps
  have hlen := hs.size_pos
  have hlast : 0 = shardSize world_size shape d := by
    apply eq_of_storage (α := α)
    intro storage
    -- node 1 is the last peer in the dictionary
    have hperm : ((List.range (numSplits (dimSize shape d) world_size)).erase 1 ++ [1]).Perm
        (List.range (numSplits (dimSize shape d) world_size)) :=
      (List.perm_append_singleton 1 _).trans (List.perm_cons_erase (List.mem_range.mpr hs.many)).symm
    have hrun := gather_plain hs.toSplittable (h storage) hperm (storage 0)
    have hnumel := hs.numel_eq hs.many .mps storage
    rw [entries, List.map_append] at hrun
    have hread := all_gather_last (i := 0) hrun Nat.one_ne_zero (by dsimp only; rw [hnumel]; exact hlen)
    dsimp only at hread
    rw [hnumel, Nat.one_mul, Nat.add_zero, getElem?_flat_plain _ hs.size_lt,
      region_view rfl (by
        unfold Tensor.is_contiguous
        exact decide_eq_true (.inr (Strides.dense_narrow_rowMajor houter _))), hnumel] at hread
    have hzero : ((List.range (shardSize world_size shape d)).map storage)[0]? = some (storage 0) := by
      simp [hlen]
    exact Option.some.inj (hzero.symm.trans hread.symm)
  omega

end EqualShards

/-! ## When the Round Trip Works -/

theorem sizeAt_eq (t : Tensor α) (d : Nat) : t.sizeAt d = t.shape.getD d 0 := by
  simp [Tensor.sizeAt, Strides.size, Tensor.shape, List.getD_eq_getElem?_getD]

theorem outer_eq (t : Tensor α) (d : Nat) : outer t.dims d = (t.shape.take d).prod := by
  simp [outer, Strides.numel, Tensor.shape, List.map_take]

/-- **Splitting and gathering** gives back every tensor of the shape on the device
    exactly if there is one shard, or the shards are equal, no dimension before the
    split one has a size other than one, and the shards are copies. -/
theorem gather_split_iff [Nontrivial α] (hd : wrapDim dim shape.length = some d) (hworld : 0 < world_size)
    (hpos : 0 < shape.prod) (device : Device) :
    (∀ t : Tensor α, t.shape = shape → t.device = device → RoundTrips world_size dim t) ↔
      Tensor.numSplits (shape.getD d 0) world_size = 1 ∨
        (shape.take d).prod = 1 ∧ Tensor.splitSize (shape.getD d 0) world_size ∣ shape.getD d 0 ∧
          device ≠ .mps := by
  constructor
  · intro h
    have hplain : ∀ storage : Nat → α, RoundTrips world_size dim (plain device shape storage) :=
      fun storage => h _ (shape_plain storage) rfl
    have hsize : dimSize shape d = shape.getD d 0 := by
      obtain ⟨x, -⟩ := exists_pair_ne α
      have heq := sizeAt_eq (plain device shape fun _ => x) d
      rwa [shape_plain] at heq
    have houter : outer (rowMajor shape) d = (shape.take d).prod := by
      obtain ⟨x, -⟩ := exists_pair_ne α
      have heq := outer_eq (plain device shape fun _ => x) d
      rwa [shape_plain] at heq
    have hs : Splittable world_size dim (rowMajor shape) d := by
      refine ⟨?_, hworld, ?_⟩
      · rwa [← Strides.map_fst_rowMajor shape, List.length_map] at hd
      · rwa [Strides.numel_rowMajor]
    have hdvd := dvd_of_roundTrips hs hplain
    have hsplits := (numSplits_bounds (show 0 < dimSize shape d from hs.pos.2.1) hworld).2.2
    rw [← hsize, ← houter]
    rcases Nat.lt_or_ge 1 (numSplits (dimSize shape d) world_size) with hmany | hone
    · right
      have hequal : EqualShards world_size dim shape d := ⟨hs, hdvd, hmany⟩
      exact ⟨hequal.outer_of_roundTrips hplain, hdvd, hequal.device_of_roundTrips hplain⟩
    · left
      omega
  · intro hcond t hshape hdevice
    subst hshape
    have hs : Splittable world_size dim t.dims d := ⟨by rwa [Tensor.shape, List.length_map] at hd, hworld, hpos⟩
    rw [← sizeAt_eq, ← outer_eq] at hcond
    rcases hcond with hone | ⟨houter, hdvd, hdev⟩
    · exact roundTrips_of_one hs hone
    · exact roundTrips_of_dvd hs houter hdvd (hdevice ▸ hdev)

/-- Four rows for two nodes, copied to the device. -/
theorem gather_split_rows : RoundTrips 2 0 (plain .cpu [4, 3] id) := by
  have hd : wrapDim 0 [4, 3].length = some 0 := by decide
  exact (gather_split_iff hd (by decide) (by decide) .cpu).mpr (.inr ⟨by decide, by decide, by decide⟩) _ rfl rfl

/-- For two nodes: three elements are gathered as 0, 2 and what was in the memory
    before; the columns of a 2 by 2 tensor one after the other; and of a tensor on the
    device the first element twice. -/
theorem gather_split_fails : ¬RoundTrips 2 0 (plain .cpu [3] id) ∧ ¬RoundTrips 2 1 (plain .cpu [2, 2] id) ∧
    ¬RoundTrips 2 0 (plain .mps [2] id) := by
  refine ⟨?_, ?_, ?_⟩
  · intro h
    have hrun := h _ rfl ⟨0, by decide⟩ (everyone _) [9, 9, 9] rfl
    change some [0, 2, 9] = some [0, 1, 2] at hrun
    exact absurd hrun (by decide)
  · intro h
    have hrun := h _ rfl ⟨0, by decide⟩ (everyone _) [9, 9, 9, 9] rfl
    change some [0, 2, 1, 3] = some [0, 1, 2, 3] at hrun
    exact absurd hrun (by decide)
  · intro h
    have hrun := h _ rfl ⟨0, by decide⟩ (everyone _) [9, 9] rfl
    change some [0, 0] = some [0, 1] at hrun
    exact absurd hrun (by decide)

end Failures

/-! ## Layers -/

section Layers

variable {β : Type}

/-- `layers[start:stop]`, where both are cut off at the length. -/
def slice (layers : List α) (start stop : Nat) : List α := (layers.take stop).drop start

/-- The entries of the dictionary, in the order in which they are made. `none` if it
    divides by zero. -/
def pipeline_parallel_split (deepcopy : α → β) (world_size : Nat) (model_layers : List α) :
    Option (List (Nat × List β)) :=
  if world_size = 0 then none
  else
    let layers_per_node := max 1 (model_layers.length / world_size)
    some ((List.range world_size).map fun i =>
      let start := i * layers_per_node
      let stop := if i = world_size - 1 then model_layers.length else start + layers_per_node
      (i, (slice model_layers start stop).map deepcopy))

/-- Consecutive slices of one size, however many of them are past the end. -/
theorem flatMap_slice (layers : List α) (size n : Nat) :
    (List.range n).flatMap (fun i => slice layers (i * size) (i * size + size)) = layers.take (n * size) := by
  induction n with
  | zero => simp
  | succ n ih =>
    rw [List.range_succ, List.flatMap_append, ih, List.flatMap_singleton, Nat.succ_mul, List.take_add, slice,
      List.drop_take, Nat.add_sub_cancel_left]

theorem flatMap_stages (layers : List α) (size : Nat) {n : Nat} (hn : 0 < n) :
    (List.range n).flatMap (fun i => slice layers (i * size)
      (if i = n - 1 then layers.length else i * size + size)) = layers := by
  obtain ⟨n, rfl⟩ := Nat.exists_eq_add_of_lt hn
  rw [Nat.zero_add, Nat.add_sub_cancel, List.range_succ, List.flatMap_append, List.flatMap_singleton, if_pos rfl]
  -- all stages but the last have the same size, and the last one has the rest
  have hfull : (List.range n).flatMap (fun i => slice layers (i * size)
      (if i = n then layers.length else i * size + size)) = layers.take (n * size) := by
    rw [← flatMap_slice]
    apply List.flatMap_congr
    intro i hi
    rw [if_neg (Nat.ne_of_lt (List.mem_range.mp hi))]
  rw [hfull, slice, List.take_length, List.take_append_drop]

/-- **The stages are the layers**: one after the other they are the copies of all
    layers, in order, for any numbers of layers and nodes. -/
theorem pipeline_split_concat (deepcopy : α → β) {world_size : Nat} (hworld : 1 ≤ world_size)
    (model_layers : List α) :
    ∃ result, pipeline_parallel_split deepcopy world_size model_layers = some result ∧
      result.map Prod.fst = List.range world_size ∧
      (List.range world_size).flatMap (fun i => (result.lookup i).getD []) = model_layers.map deepcopy := by
  refine ⟨_, if_neg (Nat.ne_of_gt hworld), ?_, ?_⟩
  · rw [List.map_map]
    exact List.map_id _
  · have hstages := flatMap_stages model_layers (max 1 (model_layers.length / world_size)) hworld
    apply Eq.trans _ (congrArg (List.map deepcopy) hstages)
    rw [List.map_flatMap]
    apply List.flatMap_congr
    intro i hi
    rw [List.lookup_graph _ hi]
    rfl

/-- Two layers for four nodes: the last two nodes get none. -/
theorem pipeline_split_few : ∃ result, pipeline_parallel_split (fun layer : Nat => layer) 4 [7, 8] = some result ∧
    result.map Prod.fst = List.range 4 ∧
    (List.range 4).flatMap (fun i => (result.lookup i).getD []) = [7, 8].map fun layer => layer :=
  pipeline_split_concat (fun layer => layer) (by decide) [7, 8]

end Layers

end Mccl.Sharding
