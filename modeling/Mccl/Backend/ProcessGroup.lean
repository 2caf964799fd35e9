import Mccl.Backend.Allreduce
import Mccl.Framework.Dispatch
import Mccl.Metal.Interop

/-! # The Process Group

    Model of `backend/ProcessGroupMCCL.cpp` and `backend/WorkMCCL.cpp`: the
    collectives and point-to-point operations of one rank.

    * The body of an operation is a program of the rank (`RankProg`). Helper
      threads are the threads of a fork-join block.
    * A method of the process group is a `Call`: `async_submit_` hands the body
      to the engine; `allreduce`, the checks of the arguments and the paths for
      a single rank run on the calling thread.
    * A finished operation is appended to the rank's list of works.

    Every heap buffer of an operation has a number; it does not matter that two
    operations use the same numbers, since they do not run at the same time. -/

namespace Mccl

open ForkJoin Arrays

variable {D : Device UInt8}

/-! ## Works -/

abbrev RankCall (D : Device UInt8) := Call Nat Addr UInt8 (Local D Host)

/-- The state in which the work has been completed. -/
def completed (error : Option String) (s : RankState D) : RankState D :=
  { s with aux := { s.aux with host :=
    { s.aux.host with works := s.aux.host.works ++ [⟨error, s.mem⟩] } } }

/-- `WorkMCCL::finishWithException`. -/
def finishWithException (msg : String) : RankProg D Unit := .modify (completed (some msg))

/-- `WorkMCCL::finish`; `sync_cb`, if set, drains the queue. -/
def finish (sync_cb : Bool) : RankProg D Unit :=
  .modify fun s => completed none (if sync_cb then drain s else s)

def make_completed : RankProg D Unit := finish false

def async_submit_ (body : RankProg D Unit) (sync_cb : Bool) : RankCall D :=
  .submit ((do body; finish sync_cb).tryCatch finishWithException)

/-- The calling thread raises. -/
def throw_ (msg : String) : RankCall D := .inline (.raise msg)

/-! ## Helpers -/

def check_mps_ (t : Tensor) (op : String) : RankProg D Unit := do
  .check t.is_mps (op ++ ": MCCL is MPS-only; got " ++ t.device.name ++ " tensor")
  .check t.is_contiguous (op ++ ": tensor must be contiguous")

/-- `for (int p = 0; p < world; ++p) { if (p == rank) continue; ... }` -/
def peers (rank world : Nat) : List Nat := (List.range world).filter (· ≠ rank)

/-- `ts[p]`. -/
abbrev entry (ts : List Tensor) (p : Nat) : Tensor := ts.getD p default

/-- `at::Tensor::copy_` for tensors of the same type and shape. -/
def copy_ (dst src : Tensor) : RankProg D Unit := memcpy dst.addr src.addr src.nbytes

/-- `at::empty_like`, as Metal buffer number `i` of the operation. -/
def empty_like (t : Tensor) (i : Nat) : Tensor :=
  { t with is_contiguous := true, storage := .tmp i, storage_offset := 0 }

/-! ## Broadcast -/

def broadcast_tensor (rank world root : Nat) (t : Tensor) : RankProg D Unit := do
  check_mps_ t "broadcast"
  if rank = root then do
    let send_sb ← stage_for_send_nosync t
    .fork ((peers root world).map fun p => [mesh_send p send_sb.data send_sb.nbytes])
  else do
    let v ← extract_mps_buffer t
    match v.cpu_ptr with
    | none => .raise "broadcast recv: tensor MTLBuffer not shared/cpu-accessible"
    | some ptr => .fork [[mesh_recv root ptr t.nbytes]]

def broadcast_body (rank world root : Nat) (tensors : List Tensor) : RankProg D Unit :=
  forM (List.range tensors.length) fun i => broadcast_tensor rank world root (entry tensors i)

/-! ## Allgather -/

def _allgather_base_body (rank world : Nat) (output input : Tensor) : RankProg D Unit := do
  check_mps_ input "_allgather_base"
  check_mps_ output "_allgather_base"
  let send_sb ← stage_for_send_nosync input
  let chunk := send_sb.nbytes
  let total := output.nbytes
  .check (total = chunk * world) "_allgather_base: output size != input * world"
  vector 0 total
  memcpy (off (heap 0) (rank * chunk)) send_sb.data chunk
  .fork ((peers rank world).map fun p =>
    [mesh_send p send_sb.data chunk, mesh_recv p (off (heap 0) (p * chunk)) chunk])
  unstage_from_recv output (heap 0) total

/-- Round `i` of `allgather`; `peer_buf[p]` is heap buffer `p`. -/
def allgather_one (rank world : Nat) (outs : List Tensor) (input : Tensor) : RankProg D Unit := do
  .check (outs.length = world) "allgather: output list size != world"
  check_mps_ input "allgather"
  forM outs (check_mps_ · "allgather")
  let send_sb ← stage_for_send_nosync input
  let chunk := send_sb.nbytes
  forM (peers rank world) fun p => vector p chunk
  .fork ((peers rank world).map fun p =>
    [mesh_send p send_sb.data chunk, mesh_recv p (heap p) chunk])
  unstage_from_recv (entry outs rank) send_sb.data chunk
  forM (peers rank world) fun p => unstage_from_recv (entry outs p) (heap p) chunk

def allgather_body (rank world : Nat) (outputs : List (List Tensor)) (inputs : List Tensor) :
    RankProg D Unit := do
  .check (inputs.length = outputs.length) "allgather: input/output count mismatch"
  forM (List.range inputs.length) fun i =>
    allgather_one rank world (outputs.getD i []) (entry inputs i)

/-! ## Reduce-scatter -/

/-- Averages are scaled. -/
def scale_average (world : Nat) (op : RedOpType) (out : Tensor) : RankProg D Unit :=
  if op = .AVG then metal_scale_inplace out (D.recip world) else pure ()

/-- Reduce what the peers have sent (`recv_bufs[p]` is heap buffer `p`) in one
    batch of kernels. -/
def reduce_peers (rank world : Nat) (op : RedOpType) (out : Tensor) (peer_tmp : Nat → Tensor)
    (chunk : Nat) : RankProg D Unit := do
  metal_begin_batch
  forM (peers rank world) fun p => do
    unstage_from_recv (peer_tmp p) (heap p) chunk
    metal_reduce_op out (peer_tmp p) op
  scale_average world op out
  metal_end_batch

def _reduce_scatter_base_body (rank world : Nat) (op : RedOpType) (output input : Tensor) :
    RankProg D Unit := do
  check_mps_ input "_reduce_scatter_base"
  check_mps_ output "_reduce_scatter_base"
  let send_sb ← stage_for_send_nosync input
  let chunk := output.nbytes
  .check (send_sb.nbytes = chunk * world) "_reduce_scatter_base: input size != output * world"
  let src := send_sb.data
  -- Seed the output with the rank's own share; the peers' shares are reduced into it.
  unstage_from_recv output (off src (rank * chunk)) chunk
  forM (peers rank world) fun p => vector p chunk
  .fork ((peers rank world).map fun p =>
    [mesh_send p (off src (p * chunk)) chunk, mesh_recv p (heap p) chunk])
  reduce_peers rank world op output (empty_like output) chunk

def reduce_scatter_stage (ins : List Tensor) (p : Nat) : RankProg D StagingBuffer := do
  check_mps_ (entry ins p) "reduce_scatter"
  stage_for_send_nosync (entry ins p)

/-- Round `i` of `reduce_scatter`. The kernels of the earlier rounds may still
    be waiting, so the temporaries of the rounds are different buffers. -/
def reduce_scatter_one (rank world : Nat) (op : RedOpType) (i : Nat) (out : Tensor)
    (ins : List Tensor) : RankProg D Unit := do
  .check (ins.length = world) "reduce_scatter: input list size != world"
  check_mps_ out "reduce_scatter"
  let send_sbs ← (List.range world).mapM (reduce_scatter_stage ins)
  let chunk := (send_sbs.getD 0 default).nbytes
  .check (out.nbytes = chunk) "reduce_scatter: output size != input chunk size"
  unstage_from_recv out (send_sbs.getD rank default).data chunk
  forM (peers rank world) fun p => vector p chunk
  .fork ((peers rank world).map fun p =>
    [mesh_send p (send_sbs.getD p default).data chunk, mesh_recv p (heap p) chunk])
  reduce_peers rank world op out (fun p => empty_like out (i * world + p)) chunk

def reduce_scatter_body (rank world : Nat) (op : RedOpType) (outputs : List Tensor)
    (inputs : List (List Tensor)) : RankProg D Unit := do
  .check (outputs.length = inputs.length) "reduce_scatter: count mismatch"
  forM (List.range outputs.length) fun i =>
    reduce_scatter_one rank world op i (entry outputs i) (inputs.getD i [])

/-! ## All-to-all -/

/-- The conversion to `size_t`. -/
def size_t (x : Int) : Nat := (x % 2 ^ 64).toNat

/-- Entry `p` of a table of offsets: the sum of the first `p` lengths. -/
def offsets (len : Nat → Int) : Nat → Nat
  | 0 => 0
  | p + 1 => size_t (offsets len p + len p)

/-- The length of block `p` in a table of offsets. -/
def block_size (offs : Nat → Nat) (p : Nat) : Nat := size_t (offs (p + 1) - offs p)

/-- The bytes of block `p`: the tensor is cut into equal blocks, or as the
    split sizes say. -/
def block_len (t : Tensor) (splits : List Int) (world p : Nat) : Int :=
  if splits.isEmpty then (t.numel / world * t.element_size : Nat)
  else splits.getD p 0 * t.element_size

/-- The checks of the blocks of the input or the output (`which`). -/
def check_blocks (t : Tensor) (splits : List Int) (world : Nat) (which : String) : RankProg D Unit :=
  if splits.isEmpty then
    .check (t.numel / world * t.element_size * world = t.nbytes)
      ("alltoall_base: " ++ which ++ " not divisible by world")
  else
    .check (splits.length = world) ("alltoall_base: " ++ which ++ "_split_sizes wrong length")

/-- The thread for a peer, unless there is nothing to exchange with it. -/
def alltoall_thread (p : Nat) (src dst : Addr) (slen rlen : Nat) : Option (Thread Nat Addr) :=
  if slen = 0 ∧ rlen = 0 then none
  else some ((if slen ≠ 0 then [mesh_send p src slen] else []) ++
    (if rlen ≠ 0 then [mesh_recv p dst rlen] else []))

def alltoall_base_body (rank world : Nat) (output_tensor input_tensor : Tensor)
    (output_split_sizes input_split_sizes : List Int) : RankProg D Unit := do
  check_mps_ input_tensor "alltoall_base"
  check_mps_ output_tensor "alltoall_base"
  let send_sb ← stage_for_send_nosync input_tensor
  .check (input_tensor.element_size = output_tensor.element_size) "alltoall_base: dtype mismatch"
  let out_bytes := output_tensor.nbytes
  check_blocks input_tensor input_split_sizes world "input"
  check_blocks output_tensor output_split_sizes world "output"
  let in_off := offsets (block_len input_tensor input_split_sizes world)
  let out_off := offsets (block_len output_tensor output_split_sizes world)
  let src := send_sb.data
  let dst := heap 0
  vector 0 out_bytes
  let slen := block_size in_off
  let rlen := block_size out_off
  .check (slen rank = rlen rank) "alltoall_base: self chunk size mismatch"
  memcpy (off dst (out_off rank)) (off src (in_off rank)) (slen rank)
  .fork ((peers rank world).filterMap fun p =>
    alltoall_thread p (off src (in_off p)) (off dst (out_off p)) (slen p) (rlen p))
  unstage_from_recv output_tensor dst out_bytes

/-- What rank `rank` prepares for the exchange with `p`; `recv_bufs[p]` is heap
    buffer `p`. -/
def alltoall_stage (rank : Nat) (outs ins : List Tensor) (p : Nat) : RankProg D StagingBuffer := do
  check_mps_ (entry ins p) "alltoall"
  check_mps_ (entry outs p) "alltoall"
  let sb ← stage_for_send_nosync (entry ins p)
  if p = rank then pure sb else do
    vector p (entry outs p).nbytes
    pure sb

def alltoall_body (rank world : Nat) (outs ins : List Tensor) : RankProg D Unit := do
  let send_sbs ← (List.range world).mapM (alltoall_stage rank outs ins)
  unstage_from_recv (entry outs rank) (send_sbs.getD rank default).data
    (send_sbs.getD rank default).nbytes
  .fork ((peers rank world).map fun p =>
    [mesh_send p (send_sbs.getD p default).data (send_sbs.getD p default).nbytes,
      mesh_recv p (heap p) (entry outs p).nbytes])
  forM (peers rank world) fun p => unstage_from_recv (entry outs p) (heap p) (entry outs p).nbytes

/-! ## Point to point -/

/-- `uint32_t` in little-endian order. -/
def uint32Codec : Codec UInt32 UInt8 where
  size := 4
  size_pos := by decide
  enc := fun x b => UInt8.ofNat (x.toNat / 256 ^ (b : Nat))
  dec := fun f => UInt32.ofNat ((f 0).toNat + 256 * (f 1).toNat + 65536 * (f 2).toNat +
    16777216 * (f 3).toNat)
  dec_enc := by
    intro x
    have hx := x.toNat_lt
    apply UInt32.toNat_inj.mp
    simp
    omega

/-- The two words of a frame's header. -/
def header (tag : Int32) (nbytes : UInt32) : Nat → UInt32
  | 0 => tag.toUInt32
  | _ => nbytes

def HEADER_SIZE : Nat := 8

/-- Send one frame: the header, which is heap buffer 0, and the payload. -/
def send_tensor (dst_rank : Nat) (tag : Int32) (t : Tensor) : RankProg D Unit := do
  check_mps_ t "send"
  let sb ← stage_for_send_nosync t
  let nbytes := UInt32.ofNat sb.nbytes
  .modify fun s => { s with mem := store uint32Codec s.mem (heap 0) 2 (header tag nbytes) }
  .fork [[mesh_send dst_rank (heap 0) HEADER_SIZE]]
  .fork [[mesh_send dst_rank sb.data nbytes.toNat]]

/-- Receive one frame. -/
def recv_tensor (src_rank : Nat) (tag : Int32) (t : Tensor) : RankProg D Unit := do
  check_mps_ t "recv"
  vector 0 HEADER_SIZE
  .fork [[mesh_recv src_rank (heap 0) HEADER_SIZE]]
  let s ← .get
  let hdr_tag := (elem uint32Codec s.mem (heap 0) 0).toInt32
  let nbytes := elem uint32Codec s.mem (heap 0) 1
  .check (tag < 0 ∨ hdr_tag = tag) ("recv: tag mismatch (expected " ++ toString tag.toInt ++
    " got " ++ toString hdr_tag.toInt ++ ")")
  .check (nbytes.toNat = t.nbytes) ("recv: size mismatch (expected " ++ toString t.nbytes ++
    " got " ++ toString nbytes.toNat ++ ")")
  vector 1 nbytes.toNat
  .fork [[mesh_recv src_rank (heap 1) nbytes.toNat]]
  unstage_from_recv t (heap 1) nbytes.toNat

/-! ## Allreduce -/

/-- The environment variables that `allreduce` reads. -/
structure AllreduceEnv where
  /-- `MCCL_WIRE_DTYPE` is `bf16`. -/
  wire_bf16 : Bool
  /-- `MCCL_ALLREDUCE_ALGO`. -/
  algo : Option String
  /-- `MCCL_TREE_BELOW`, or its default. -/
  tree_below : Nat

/-- `t.to(at::kBFloat16)`. -/
def to_bf16 (t : Tensor) (i : Nat) : RankProg D Tensor := do
  let wt := { empty_like t i with dtype := .BFloat16, storage := .scratch (2 * i) }
  .modify fun s =>
    let v (j : Nat) := D.roundBF16 (elem (D.codec .f32) s.mem t.addr j)
    { s with mem := store (D.codec .bf16) s.mem wt.addr t.numel v }
  pure wt

/-- The tensor that is reduced. -/
def wire_tensor (env : AllreduceEnv) (t : Tensor) (i : Nat) : RankProg D Tensor :=
  if env.wire_bf16 ∧ t.dtype = .Float then to_bf16 t i else pure t

/-- A buffer that the tensor is not in. -/
def scratch_buf (wt : Tensor) (i : Nat) : Buf :=
  if wt.storage = .scratch (2 * i + 1) then .scratch (2 * i) else .scratch (2 * i + 1)

/-- `a.recv_scratch`. -/
def recv_scratch (wt : Tensor) (i n : Nat) : Tensor :=
  { empty_like wt i with sizes := [n], storage := scratch_buf wt i }

theorem recv_scratch_fresh (wt : Tensor) (i n : Nat) :
    (recv_scratch wt i n).view.mtl_buffer ≠ wt.view.mtl_buffer := by
  simp only [recv_scratch, Tensor.view, scratch_buf]
  split
  · rename_i h
    rw [h]
    simp
  · exact Ne.symm ‹_›

/-- What is prepared for tensor `i`. -/
structure AllreducePlan where
  wt : Tensor
  alg : AllreduceAlgo
  args : AllreduceArgs

/-- The plan for a tensor; its number of elements is cut to 32 bits. -/
def plan (env : AllreduceEnv) (world : Nat) (wt : Tensor) (i : Nat) : AllreducePlan :=
  let alg := allreduce_algo env.algo env.tree_below wt.nbytes wt.numel world
  let scratch := recv_scratch wt i (scratch_numel wt.numel world alg)
  ⟨wt, alg, ⟨wt.view, scratch.view, wt.dtype, wt.numel % 2 ^ 32, recv_scratch_fresh wt i _⟩⟩

theorem plan_scratch_nbytes (env : AllreduceEnv) (world : Nat) (wt : Tensor) (i : Nat) :
    (plan env world wt i).args.recv_view.nbytes =
      scratch_numel wt.numel world (plan env world wt i).alg * wt.dtype.elementSize := by
  simp [plan, Tensor.view, Tensor.nbytes, Tensor.numel, Tensor.element_size, recv_scratch, empty_like]

def allreduce_prepare (env : AllreduceEnv) (world : Nat) (t : Tensor) (i : Nat) :
    RankProg D AllreducePlan := do
  check_mps_ t "allreduce"
  let wt ← wire_tensor env t i
  let p := plan env world wt i
  check_single_tensor wt
  check_single_tensor (recv_scratch wt i (scratch_numel wt.numel world p.alg))
  pure p

/-- Copy the result back if the tensor was converted. -/
def copy_back (t wt : Tensor) : RankProg D Unit :=
  if wt.addr ≠ t.addr then
    .modify fun s =>
      let v (j : Nat) := D.widenBF16 (elem (D.codec .bf16) s.mem wt.addr j)
      { s with mem := store (D.codec .f32) s.mem t.addr t.numel v }
  else pure ()

def allreduce_body (env : AllreduceEnv) (rank world : Nat) (op : RedOpType) (tensors : List Tensor) :
    RankProg D Unit := do
  let plans ← (List.range tensors.length).mapM fun i =>
    allreduce_prepare env world (entry tensors i) i
  forM plans fun p => p.alg.run p.args op rank world
  mccl_queue_drain
  forM (tensors.zip plans) fun x => copy_back x.1 x.2.wt

/-! ## The methods -/

structure ProcessGroupMCCL where
  rank : Nat
  size : Nat

namespace ProcessGroupMCCL

variable (pg : ProcessGroupMCCL)

def allreduce (env : AllreduceEnv) (op : RedOpType) (tensors : List Tensor) : RankCall D :=
  if pg.size = 1 then .inline make_completed
  else .inline do
    .check (tensors ≠ []) "allreduce: empty tensor list"
    allreduce_body env pg.rank pg.size op tensors
    make_completed

def broadcast (root : Nat) (tensors : List Tensor) : RankCall D :=
  if pg.size = 1 then .inline make_completed
  else if tensors = [] then throw_ "broadcast: empty tensor list"
  else async_submit_ (broadcast_body pg.rank pg.size root tensors) true

def _allgather_base (output input : Tensor) : RankCall D :=
  if pg.size = 1 then .inline do copy_ output input; make_completed
  else async_submit_ (_allgather_base_body pg.rank pg.size output input) true

def allgather (outputs : List (List Tensor)) (inputs : List Tensor) : RankCall D :=
  if pg.size = 1 then .inline do
    .check (outputs ≠ [] ∧ outputs.getD 0 [] ≠ []) "allgather output empty"
    copy_ (entry (outputs.getD 0 []) 0) (entry inputs 0)
    make_completed
  else async_submit_ (allgather_body pg.rank pg.size outputs inputs) true

def _reduce_scatter_base (op : RedOpType) (output input : Tensor) : RankCall D :=
  if pg.size = 1 then .inline do copy_ output input; make_completed
  else async_submit_ (_reduce_scatter_base_body pg.rank pg.size op output input) true

def reduce_scatter (op : RedOpType) (outputs : List Tensor) (inputs : List (List Tensor)) :
    RankCall D :=
  if pg.size = 1 then .inline do
    .check (inputs ≠ [] ∧ inputs.getD 0 [] ≠ []) "reduce_scatter input empty"
    copy_ (entry outputs 0) (entry (inputs.getD 0 []) 0)
    make_completed
  else async_submit_ (reduce_scatter_body pg.rank pg.size op outputs inputs) true

def alltoall_base (output input : Tensor) (output_split_sizes input_split_sizes : List Int) :
    RankCall D :=
  if pg.size = 1 then .inline do copy_ output input; make_completed
  else async_submit_ (alltoall_base_body pg.rank pg.size output input output_split_sizes
    input_split_sizes) true

def alltoall (outputs inputs : List Tensor) : RankCall D :=
  if ¬ (inputs.length = pg.size ∧ outputs.length = pg.size) then throw_ "alltoall: list size != world"
  else if pg.size = 1 then .inline do
    copy_ (entry outputs 0) (entry inputs 0)
    make_completed
  else async_submit_ (alltoall_body pg.rank pg.size outputs inputs) true

/-- The rendezvous, if there is one, uses nothing but the store: it returns or
    raises. -/
def barrier (rendezvous_ : Option (Except String Unit)) : RankCall D :=
  if pg.size = 1 then .inline make_completed
  else match rendezvous_ with
    | none => .inline make_completed
    | some (.ok _) => async_submit_ (.ret ()) false
    | some (.error msg) => async_submit_ (.raise msg) false

def send (tensors : List Tensor) (dst_rank : Int) (tag : Int32) : RankCall D :=
  if ¬ (0 ≤ dst_rank ∧ dst_rank < pg.size ∧ dst_rank ≠ pg.rank) then throw_ "send: bad dst_rank"
  else async_submit_ (forM (List.range tensors.length) fun i =>
    send_tensor dst_rank.toNat tag (entry tensors i)) false

def recv (tensors : List Tensor) (src_rank : Int) (tag : Int32) : RankCall D :=
  if ¬ (0 ≤ src_rank ∧ src_rank < pg.size ∧ src_rank ≠ pg.rank) then throw_ "recv: bad src_rank"
  else async_submit_ (forM (List.range tensors.length) fun i =>
    recv_tensor src_rank.toNat tag (entry tensors i)) true

end ProcessGroupMCCL

end Mccl
