import Mccl.Metal.Kernels

/-! # Allreduce Algorithms

    Model of `backend/AllreduceAlgos.cpp`: the ring, the tree and the
    butterfly, as programs of one rank. `PeerMesh::send` and `PeerMesh::recv`
    are the blocking calls of `ForkJoin.Op`. A `std::thread` that runs next to
    the calling thread is a second thread of the fork-join block.

    `AllreduceGroup` collects the arguments of all ranks of one allreduce. -/

namespace Mccl

open ForkJoin Arrays

variable {β : Type} {D : Device β} {ω : Type}

/-! ## Chunks -/

structure ChunkInfo where
  elem_start : Nat
  elem_count : Nat
  byte_off : Nat
  byte_len : Nat
  deriving DecidableEq, Repr

/-- Elements per chunk, rounded up. -/
def per_chunk (numel world : Nat) : Nat := (numel + world - 1) / world

/-- Entry `i` of the table of chunks. -/
def chunkize (numel elem_size world i : Nat) : ChunkInfo :=
  let per := per_chunk numel world
  let s := min (i * per) numel
  let e := min ((i + 1) * per) numel
  { elem_start := s, elem_count := e - s, byte_off := s * elem_size, byte_len := (e - s) * elem_size }

/-! ## Arguments -/

/-- The inputs of an algorithm on one rank. The scratch is freshly allocated,
    so it does not overlap the tensor. -/
structure AllreduceArgs where
  /-- View into the user's tensor. -/
  t_view : MPSBufferView
  /-- View into the scratch. -/
  recv_view : MPSBufferView
  dtype : ScalarType
  numel : Nat
  fresh : recv_view.mtl_buffer ≠ t_view.mtl_buffer

def AllreduceArgs.esize (args : AllreduceArgs) : Nat := args.dtype.elementSize

def view_at (base : MPSBufferView) (offset : Nat) : MPSBufferView :=
  { base with byte_offset := base.byte_offset + offset, nbytes := base.nbytes - offset }

def byte_ptr (v : MPSBufferView) (offset : Nat) : Prog D ω Addr :=
  match v.cpu_ptr with
  | none => .raise "AllreduceAlgos requires shared (cpu-accessible) MTLBuffer storage"
  | some p => pure (p.1, p.2 + offset)

/-- `PeerMesh::send`. -/
def mesh_send (peer : Nat) (buf : Addr) (len : Nat) : Op Nat Addr := .send peer (span buf len)

/-- `PeerMesh::recv`. -/
def mesh_recv (peer : Nat) (buf : Addr) (len : Nat) : Op Nat Addr := .recv peer (span buf len)

/-- Divide the sum by the number of ranks. -/
def average (args : AllreduceArgs) (op : RedOpType) (world : Nat) : Prog D ω Unit :=
  if op = .AVG then
    metal_scale_inplace_view args.t_view args.dtype args.numel (D.recip world)
  else pure ()

/-! ## Ring -/

/-- Step `k` of the reduce-scatter phase. -/
def ring_reduce_step (args : AllreduceArgs) (op : RedOpType) (rank world k : Nat) :
    Prog D ω Unit := do
  let chunks := chunkize args.numel args.esize world
  let next := (rank + 1) % world
  let prev := (rank + world - 1) % world
  let send_idx := (rank + world - k) % world
  let recv_idx := (rank + world - k - 1) % world
  let s := chunks send_idx
  let r := chunks recv_idx
  let src ← byte_ptr args.t_view s.byte_off
  let dst ← byte_ptr args.recv_view 0
  .fork [[mesh_send next src s.byte_len], [mesh_recv prev dst r.byte_len]]
  metal_reduce_op_view (view_at args.t_view r.byte_off) args.recv_view args.dtype r.elem_count op

/-- Step `k` of the allgather phase. -/
def ring_gather_step (args : AllreduceArgs) (rank world k : Nat) : Prog D ω Unit := do
  let chunks := chunkize args.numel args.esize world
  let next := (rank + 1) % world
  let prev := (rank + world - 1) % world
  let send_idx := (rank + world + 1 - k) % world
  let recv_idx := (rank + world - k) % world
  let s := chunks send_idx
  let r := chunks recv_idx
  let src ← byte_ptr args.t_view s.byte_off
  let dst ← byte_ptr args.t_view r.byte_off
  .fork [[mesh_send next src s.byte_len], [mesh_recv prev dst r.byte_len]]

def allreduce_ring (args : AllreduceArgs) (op : RedOpType) (rank world : Nat) :
    Prog D ω Unit := do
  .check (world ≤ args.numel) "ring allreduce: numel must be >= world"
  forM (List.range (world - 1)) (ring_reduce_step args op rank world)
  forM (List.range (world - 1)) (ring_gather_step args rank world)
  average args op world

/-! ## Tree -/

def AllreduceArgs.nbytes (args : AllreduceArgs) : Nat := args.numel * args.esize

/-- The values of `for (mask = m; mask < world; mask <<= 1)`, at most `fuel`
    of them. -/
def masksUp (world : Nat) : (fuel m : Nat) → List Nat
  | 0, _ => []
  | fuel + 1, m => if m < world then m :: masksUp world fuel (m <<< 1) else []

/-- `while (m * 2 < world) m <<= 1`. -/
def topMask (world : Nat) : (fuel m : Nat) → Nat
  | 0, m => m
  | fuel + 1, m => if m * 2 < world then topMask world fuel (m <<< 1) else m

/-- The values of `for (mask = m; mask >= 1; mask >>= 1)`. -/
def masksDown : (fuel m : Nat) → List Nat
  | 0, _ => []
  | fuel + 1, m => if 1 ≤ m then m :: masksDown fuel (m >>> 1) else []

/-- The reduction towards rank 0. A rank that has sent its partial result is
    no longer active. -/
def tree_reduce (args : AllreduceArgs) (op : RedOpType) (rank world : Nat) :
    List Nat → (active : Bool) → Prog D ω Unit
  | [], _ => pure ()
  | mask :: masks, active =>
    if !active then pure ()
    else if rank &&& mask ≠ 0 then do
      let src ← byte_ptr args.t_view 0
      .fork [[mesh_send (rank - mask) src args.nbytes]]
      tree_reduce args op rank world masks false
    else do
      if rank + mask < world then do
        let dst ← byte_ptr args.recv_view 0
        .fork [[mesh_recv (rank + mask) dst args.nbytes]]
        metal_reduce_op_view args.t_view args.recv_view args.dtype args.numel op
      tree_reduce args op rank world masks true

/-- One step of the broadcast from rank 0. -/
def tree_broadcast_step (args : AllreduceArgs) (rank world mask : Nat) : Prog D ω Unit :=
  let twomask := mask <<< 1
  if rank % twomask = 0 ∧ rank + mask < world then do
    let src ← byte_ptr args.t_view 0
    .fork [[mesh_send (rank + mask) src args.nbytes]]
  else if rank % twomask = mask then do
    let dst ← byte_ptr args.t_view 0
    .fork [[mesh_recv (rank - mask) dst args.nbytes]]
  else pure ()

def allreduce_tree (args : AllreduceArgs) (op : RedOpType) (rank world : Nat) :
    Prog D ω Unit := do
  tree_reduce args op rank world (masksUp world world 1) true
  forM (masksDown world (topMask world world 1)) (tree_broadcast_step args rank world)
  average args op world

/-! ## Butterfly -/

/-- The threads of the reduce-scatter phase. `slot` counts the peers seen. -/
def butterfly_scatter_threads (args : AllreduceArgs) (rank world : Nat) (t recv : Addr) :
    List Nat → (slot : Nat) → List (Thread Nat Addr)
  | [], _ => []
  | p :: ps, slot =>
    if p = rank then butterfly_scatter_threads args rank world t recv ps slot
    else
      let chunks := chunkize args.numel args.esize world
      let s := chunks p
      let recv_off := slot * (chunks rank).byte_len
      [mesh_send p (t.1, t.2 + s.byte_off) s.byte_len] ::
        [mesh_recv p (recv.1, recv.2 + recv_off) (chunks rank).byte_len] ::
        butterfly_scatter_threads args rank world t recv ps (slot + 1)

/-- The threads of the allgather phase. -/
def butterfly_gather_threads (args : AllreduceArgs) (rank world : Nat) (t : Addr) :
    List Nat → List (Thread Nat Addr)
  | [] => []
  | p :: ps =>
    if p = rank then butterfly_gather_threads args rank world t ps
    else
      let chunks := chunkize args.numel args.esize world
      let s := chunks rank
      let r := chunks p
      [mesh_send p (t.1, t.2 + s.byte_off) s.byte_len] ::
        [mesh_recv p (t.1, t.2 + r.byte_off) r.byte_len] ::
        butterfly_gather_threads args rank world t ps

/-- Reduce one received slot into the rank's own chunk. -/
def butterfly_reduce_slot (args : AllreduceArgs) (op : RedOpType) (rank world slot : Nat) :
    Prog D ω Unit :=
  let my_chunk := chunkize args.numel args.esize world rank
  let dst_v := view_at args.t_view my_chunk.byte_off
  let src := view_at args.recv_view (slot * my_chunk.byte_len)
  metal_reduce_op_view dst_v src args.dtype my_chunk.elem_count op

def allreduce_butterfly (args : AllreduceArgs) (op : RedOpType) (rank world : Nat) :
    Prog D ω Unit := do
  .check (world ≤ args.numel) "butterfly allreduce: numel must be >= world"
  let my_chunk := chunkize args.numel args.esize world rank
  .check ((world - 1) * my_chunk.byte_len ≤ args.recv_view.nbytes)
    "butterfly: recv_view too small; allocate (world-1)*per chunks"
  let t ← byte_ptr args.t_view 0
  let recv ← byte_ptr args.recv_view 0
  .fork (butterfly_scatter_threads args rank world t recv (List.range world) 0)
  forM (List.range (world - 1)) (butterfly_reduce_slot args op rank world)
  .fork (butterfly_gather_threads args rank world t (List.range world))
  average args op world

end Mccl
