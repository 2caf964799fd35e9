import Mccl.Backend.Batches
import Mccl.Framework.Crew

/-! # Transport Failures

    The operations of a rank with the threads that make their calls, as in
    `backend/AllreduceAlgos.cpp` and `backend/ProcessGroupMCCL.cpp`, when any
    `PeerMesh::send` or `PeerMesh::recv` may fail.

    * `RankOp.threaded`: the operations. Tree allreduce, a broadcast that is
      received, `send` and `recv` call the mesh on the thread that runs them;
      the ring sends on a helper thread; everything else is done by helpers.
    * **Main result** (`failures_surface`): if no call fails while there are
      helper threads, the operation ends and its failure is reported. -/

namespace Mccl

open ForkJoin

abbrev RankCrew (D : Device UInt8) (α : Type) := Crew Nat Addr UInt8 (Local D Host) α

/-- What `PeerMesh::send` and `PeerMesh::recv` raise. -/
def failure : Op Nat Addr → String
  | .send _ _ => "PeerMesh: send failed"
  | .recv _ _ => "PeerMesh: recv failed"

namespace Threaded

variable {D : Device UInt8}

/-! ## Allreduce -/

/-- The threads compute their addresses themselves. -/
def byte_ptr (v : MPSBufferView) (offset : Nat) : Except String Addr :=
  match v.cpu_ptr with
  | none => .error "AllreduceAlgos requires shared (cpu-accessible) MTLBuffer storage"
  | some p => .ok (p.1, p.2 + offset)

def send_task (peer : Nat) (v : MPSBufferView) (offset len : Nat) : Task Nat Addr :=
  (byte_ptr v offset).map fun buf => [mesh_send peer buf len]

def recv_task (peer : Nat) (v : MPSBufferView) (offset len : Nat) : Task Nat Addr :=
  (byte_ptr v offset).map fun buf => [mesh_recv peer buf len]

def ring_reduce_step (args : AllreduceArgs) (op : RedOpType) (rank world k : Nat) :
    RankCrew D Unit := do
  let chunks := chunkize args.numel args.esize world
  let next := (rank + 1) % world
  let prev := (rank + world - 1) % world
  let send_idx := (rank + world - k) % world
  let recv_idx := (rank + world - k - 1) % world
  let s := chunks send_idx
  let r := chunks recv_idx
  .fork [send_task next args.t_view s.byte_off s.byte_len]
    (recv_task prev args.recv_view 0 r.byte_len)
  .ofProc true (metal_reduce_op_view (view_at args.t_view r.byte_off) args.recv_view args.dtype
    r.elem_count op)

def ring_gather_step (args : AllreduceArgs) (rank world k : Nat) : RankCrew D Unit := do
  let chunks := chunkize args.numel args.esize world
  let next := (rank + 1) % world
  let prev := (rank + world - 1) % world
  let send_idx := (rank + world + 1 - k) % world
  let recv_idx := (rank + world - k) % world
  let s := chunks send_idx
  let r := chunks recv_idx
  .fork [send_task next args.t_view s.byte_off s.byte_len]
    (recv_task prev args.t_view r.byte_off r.byte_len)

def allreduce_ring (args : AllreduceArgs) (op : RedOpType) (rank world : Nat) :
    RankCrew D Unit := do
  .ofProc true (.check (world ≤ args.numel) "ring allreduce: numel must be >= world")
  forM (List.range (world - 1)) (ring_reduce_step args op rank world)
  forM (List.range (world - 1)) (ring_gather_step args rank world)
  .ofProc true (average args op world)

def butterfly_scatter_tasks (args : AllreduceArgs) (rank world : Nat) :
    List Nat → (slot : Nat) → List (Task Nat Addr)
  | [], _ => []
  | p :: ps, slot =>
    if p = rank then butterfly_scatter_tasks args rank world ps slot
    else
      let chunks := chunkize args.numel args.esize world
      let s := chunks p
      let recv_off := slot * (chunks rank).byte_len
      send_task p args.t_view s.byte_off s.byte_len ::
        recv_task p args.recv_view recv_off (chunks rank).byte_len ::
        butterfly_scatter_tasks args rank world ps (slot + 1)

def butterfly_gather_tasks (args : AllreduceArgs) (rank world : Nat) :
    List Nat → List (Task Nat Addr)
  | [] => []
  | p :: ps =>
    if p = rank then butterfly_gather_tasks args rank world ps
    else
      let chunks := chunkize args.numel args.esize world
      let s := chunks rank
      let r := chunks p
      send_task p args.t_view s.byte_off s.byte_len ::
        recv_task p args.t_view r.byte_off r.byte_len ::
        butterfly_gather_tasks args rank world ps

def allreduce_butterfly (args : AllreduceArgs) (op : RedOpType) (rank world : Nat) :
    RankCrew D Unit := do
  .ofProc true (.check (world ≤ args.numel) "butterfly allreduce: numel must be >= world")
  let my_chunk := chunkize args.numel args.esize world rank
  .ofProc true (.check ((world - 1) * my_chunk.byte_len ≤ args.recv_view.nbytes)
    "butterfly: recv_view too small; allocate (world-1)*per chunks")
  .fork (butterfly_scatter_tasks args rank world (List.range world) 0) none
  .ofProc true (forM (List.range (world - 1)) (butterfly_reduce_slot args op rank world))
  .fork (butterfly_gather_tasks args rank world (List.range world)) none
  .ofProc true (average args op world)

def run : AllreduceAlgo → AllreduceArgs → RedOpType → Nat → Nat → RankCrew D Unit
  | .ring, args, op, rank, world => allreduce_ring args op rank world
  | .tree, args, op, rank, world => .ofProc true (allreduce_tree args op rank world)
  | .butterfly, args, op, rank, world => allreduce_butterfly args op rank world

def allreduce_body (env : AllreduceEnv) (rank world : Nat) (op : RedOpType) (tensors : List Tensor) :
    RankCrew D Unit := do
  let plans ← .ofProc true ((List.range tensors.length).mapM fun i =>
    allreduce_prepare env world (entry tensors i) i)
  forM plans fun p => run p.alg p.args op rank world
  .ofProc true do
    mccl_queue_drain
    forM (tensors.zip plans) fun x => copy_back x.1 x.2.wt

/-! ## The engine -/

/-- The task of the engine; `own` tells whether the engine thread makes the
    calls of the body itself. -/
def async_submit_ (own : Bool) (body : RankProg D Unit) (sync_cb : Bool) : RankCrew D Unit :=
  (do Crew.ofProc own body; Crew.ofProc true (finish sync_cb)).tryCatch fun msg =>
    .ofProc true (finishWithException msg)

/-- What a rank does on the calling thread without using the mesh. -/
def local_ (call : RankCall D) : RankCrew D Unit := .ofProc true call.prog

end Threaded

open Threaded (local_ send_task recv_task butterfly_scatter_tasks butterfly_gather_tasks)

namespace RankOp

variable {D : Device UInt8} (pg : ProcessGroupMCCL)

/-- The operation with its threads. -/
def threaded : RankOp → RankCrew D Unit
  | allreduce env op tensors =>
    if pg.size = 1 then .ofProc true make_completed
    else do
      .ofProc true (.check (tensors ≠ []) "allreduce: empty tensor list")
      Threaded.allreduce_body env pg.rank pg.size op tensors
      .ofProc true make_completed
  | broadcast root tensors =>
    if pg.size = 1 ∨ tensors = [] then Threaded.local_ (pg.broadcast root tensors)
    else Threaded.async_submit_ (pg.rank ≠ root) (broadcast_body pg.rank pg.size root tensors) true
  | _allgather_base output input =>
    if pg.size = 1 then Threaded.local_ (pg._allgather_base output input)
    else Threaded.async_submit_ false (_allgather_base_body pg.rank pg.size output input) true
  | allgather outputs inputs =>
    if pg.size = 1 then Threaded.local_ (pg.allgather outputs inputs)
    else Threaded.async_submit_ false (allgather_body pg.rank pg.size outputs inputs) true
  | _reduce_scatter_base op output input =>
    if pg.size = 1 then Threaded.local_ (pg._reduce_scatter_base op output input)
    else Threaded.async_submit_ false (_reduce_scatter_base_body pg.rank pg.size op output input) true
  | reduce_scatter op outputs inputs =>
    if pg.size = 1 then Threaded.local_ (pg.reduce_scatter op outputs inputs)
    else Threaded.async_submit_ false (reduce_scatter_body pg.rank pg.size op outputs inputs) true
  | alltoall_base output input output_split_sizes input_split_sizes =>
    if pg.size = 1 then
      Threaded.local_ (pg.alltoall_base output input output_split_sizes input_split_sizes)
    else Threaded.async_submit_ false (alltoall_base_body pg.rank pg.size output input output_split_sizes
      input_split_sizes) true
  | alltoall outputs inputs =>
    if ¬ (inputs.length = pg.size ∧ outputs.length = pg.size) ∨ pg.size = 1 then
      Threaded.local_ (pg.alltoall outputs inputs)
    else Threaded.async_submit_ false (alltoall_body pg.rank pg.size outputs inputs) true
  | barrier rendezvous_ => Threaded.local_ (pg.barrier rendezvous_)
  | send tensors dst_rank tag =>
    if ¬ (0 ≤ dst_rank ∧ dst_rank < pg.size ∧ dst_rank ≠ pg.rank) then
      Threaded.local_ (pg.send tensors dst_rank tag)
    else Threaded.async_submit_ true (forM (List.range tensors.length) fun i =>
      send_tensor dst_rank.toNat tag (entry tensors i)) false
  | recv tensors src_rank tag =>
    if ¬ (0 ≤ src_rank ∧ src_rank < pg.size ∧ src_rank ≠ pg.rank) then
      Threaded.local_ (pg.recv tensors src_rank tag)
    else Threaded.async_submit_ true (forM (List.range tensors.length) fun i =>
      recv_tensor src_rank.toNat tag (entry tensors i)) true

end RankOp

/-! ## Operations without helper threads -/

section unaided
variable {D : Device UInt8} {pg : ProcessGroupMCCL}

open Crew

theorem broadcast_tensor_solo {rank root : Nat} (h : rank ≠ root) (world : Nat) (t : Tensor) :
    Solo (broadcast_tensor rank world root t : RankProg D Unit) := by
  refine .bind (.of_straight (check_mps_straight _ _)) fun _ => ?_
  rw [if_neg h]
  refine .bind (.of_straight (extract_mps_buffer_straight _)) fun v => ?_
  split
  · trivial
  · exact .fork _

theorem send_tensor_solo (dst_rank : Nat) (tag : Int32) (t : Tensor) :
    Solo (send_tensor dst_rank tag t : RankProg D Unit) :=
  .bind (.of_straight (check_mps_straight _ _)) fun _ =>
    .bind (.of_straight (stage_straight _)) fun _ => .bind (.of_straight (.modify _)) fun _ =>
    .bind (.fork _) fun _ => .fork _

theorem recv_tensor_solo (src_rank : Nat) (tag : Int32) (t : Tensor) :
    Solo (recv_tensor src_rank tag t : RankProg D Unit) :=
  .bind (.of_straight (check_mps_straight _ _)) fun _ => .bind (.of_straight (.modify _)) fun _ =>
    .bind (.fork _) fun _ => .bind (.of_straight .get) fun _ => .bind (.of_straight (.check _ _)) fun _ =>
    .bind (.of_straight (.check _ _)) fun _ => .bind (.of_straight (.modify _)) fun _ =>
    .bind (.fork _) fun _ => .of_straight (unstage_straight _ _ _)

end unaided

namespace RankOp

variable {D : Device UInt8} {pg : ProcessGroupMCCL}

/-- Operations that have no helper threads. -/
def Unaided (pg : ProcessGroupMCCL) : RankOp → Prop
  | allreduce env _ _ => env.algo = some "tree"
  | broadcast root _ => pg.rank ≠ root
  | barrier _ | send _ _ _ | recv _ _ _ => True
  | _ => pg.size = 1

/-- An operation, if it is not an allreduce, uses no peer or is a task of the
    engine. -/
inductive Runs (pg : ProcessGroupMCCL) (o : RankOp) : RankCrew D Unit → Prop where
  | quiet {p : RankProg D Unit} (h : p.Straight) : Runs pg o (.ofProc true p)
  | engine {own : Bool} {body : RankProg D Unit} {sync_cb : Bool}
      (h : o.Unaided pg → own = true ∧ Crew.Solo body) :
      Runs pg o (Threaded.async_submit_ own body sync_cb)

theorem copy_completed_straight (dst src : Tensor) :
    (do copy_ dst src; make_completed : RankProg D Unit).Straight :=
  .bind (.modify _) fun _ => .modify _

theorem threaded_runs {o : RankOp} (h : ∀ env op tensors, o ≠ allreduce env op tensors) :
    Runs pg o (o.threaded pg : RankCrew D Unit) := by
  cases o <;> rw [threaded]
  case allreduce env op tensors => exact absurd rfl (h env op tensors)
  case broadcast root tensors =>
    split
    · refine .quiet ?_
      rw [ProcessGroupMCCL.broadcast]
      split
      · exact .modify _
      · rw [if_pos (by tauto)]
        trivial
    · exact .engine fun hne => ⟨decide_eq_true hne, .forM fun _ _ => broadcast_tensor_solo hne _ _⟩
  case alltoall outputs inputs =>
    split
    · refine .quiet ?_
      rw [ProcessGroupMCCL.alltoall]
      split
      · trivial
      · rw [if_pos (by tauto)]
        exact copy_completed_straight _ _
    · rename_i hne
      exact .engine fun h1 => absurd (.inr h1) hne
  case barrier rendezvous_ =>
    refine .quiet ?_
    unfold ProcessGroupMCCL.barrier
    split
    · exact .modify _
    · split
      · exact .modify _
      · exact fun _ => trivial
      · exact fun _ => trivial
  case send tensors dst_rank tag =>
    split
    · rename_i hbad
      refine .quiet ?_
      rw [ProcessGroupMCCL.send, if_pos hbad]
      trivial
    · exact .engine fun _ => ⟨rfl, .forM fun _ _ => send_tensor_solo _ _ _⟩
  case recv tensors src_rank tag =>
    split
    · rename_i hbad
      refine .quiet ?_
      rw [ProcessGroupMCCL.recv, if_pos hbad]
      trivial
    · exact .engine fun _ => ⟨rfl, .forM fun _ _ => recv_tensor_solo _ _ _⟩
  all_goals
    split
    · rename_i h1
      refine .quiet ?_
      simp only [ProcessGroupMCCL._allgather_base, ProcessGroupMCCL.allgather,
        ProcessGroupMCCL._reduce_scatter_base, ProcessGroupMCCL.reduce_scatter,
        ProcessGroupMCCL.alltoall_base, if_pos h1]
      first
        | exact copy_completed_straight _ _
        | exact .bind (.check _ _) fun _ => copy_completed_straight _ _
    · rename_i hne
      exact .engine fun h1 => absurd h1 hne

/-! ## Failures -/

theorem allreduce_propagates (env : AllreduceEnv) (op : RedOpType) (rank world : Nat)
    (tensors : List Tensor) : (Threaded.allreduce_body env rank world op tensors : RankCrew D Unit).Propagates
      failure := by
  refine .bind (.ofProc _ _) fun plans => .bind (.forM fun p _ => ?_) fun _ => .ofProc _ _
  cases p.alg with
  | ring =>
    exact .bind (.ofProc _ _) fun _ =>
      .bind (.forM fun _ _ => .bind (.fork _ _) fun _ => .ofProc _ _) fun _ =>
      .bind (.forM fun _ _ => .fork _ _) fun _ => .ofProc _ _
  | tree => exact .ofProc _ _
  | butterfly =>
    exact .bind (.ofProc _ _) fun _ => .bind (.ofProc _ _) fun _ => .bind (.fork _ _) fun _ =>
      .bind (.ofProc _ _) fun _ => .bind (.fork _ _) fun _ => .ofProc _ _

/-- The failure has been reported: `allreduce` has raised it, any other
    operation has finished its work with it. -/
def Reported : RankOp → Crew.State Nat Addr UInt8 (Local D Host) → Prop
  | allreduce _ _ _, s => ∃ c, s.prog = .raise (failure c)
  | _, s => s.prog = .ret () ∧ ∃ c s₀, s.store = completed (some (failure c)) s₀

theorem async_submit_surfaces (own : Bool) (body : RankProg D Unit) (sync_cb : Bool) :
    (Threaded.async_submit_ own body sync_cb).Surfaces failure
      (fun _ s => ∃ c s₀, s = completed (some (failure c)) s₀) fun _ _ => False :=
  Crew.Propagates.tryCatch (.bind (.ofProc _ _) fun _ => .ofProc _ _) (fun _ _ => trivial)
    fun c s => ⟨c, s, rfl⟩

end RankOp

section main
variable {D : Device UInt8} {pg : ProcessGroupMCCL}

theorem reported_of_reach {o : RankOp} {st : RankState D}
    {s : Crew.State Nat Addr UInt8 (Local D Host)}
    (h : (Crew.system failure (o.threaded pg) st).Reach Crew.Harmless s) :
    s.terminated = false ∧ (Crew.Over failure s → s.failed = true → o.Reported s) := by
  by_cases hall : ∃ env op tensors, o = .allreduce env op tensors
  · obtain ⟨env, op, tensors, rfl⟩ := hall
    have hprop : ((RankOp.allreduce env op tensors).threaded pg : RankCrew D Unit).Propagates
        failure := by
      rw [RankOp.threaded]
      split
      · exact .ofProc _ _
      · exact .bind (.ofProc _ _) fun _ => .bind (RankOp.allreduce_propagates _ _ _ _ _) fun _ =>
          .ofProc _ _
    have hinv := Crew.inv_of_reach hprop h
    refine ⟨hinv.running, fun hover hfail => ?_⟩
    obtain ⟨-, hfalse⟩ | ⟨msg, hmsg, c, rfl⟩ := hinv.settled hover hfail
    · exact hfalse.elim
    · exact ⟨c, hmsg⟩
  · have hne : ∀ env op tensors, o ≠ .allreduce env op tensors := fun env op tensors ho =>
      hall ⟨env, op, tensors, ho⟩
    have hsur : (o.threaded pg : RankCrew D Unit).Surfaces failure
        (fun _ s => ∃ c s₀, s = completed (some (failure c)) s₀) fun _ _ => False := by
      have hruns : RankOp.Runs pg o (o.threaded pg : RankCrew D Unit) := RankOp.threaded_runs hne
      generalize o.threaded pg = p at hruns
      cases hruns with
      | quiet hp => exact .of_straight hp _
      | engine => exact RankOp.async_submit_surfaces _ _ _
    have hinv := Crew.inv_of_reach hsur h
    refine ⟨hinv.running, fun hover hfail => ?_⟩
    obtain hret | ⟨msg, -, hfalse⟩ := hinv.settled hover hfail
    · cases o with
      | allreduce env op tensors => exact absurd rfl (hne env op tensors)
      | _ => exact hret
    · exact hfalse.elim

/-- **Failures surface**, if nothing fails next to helper threads: the process
    is not terminated, the operation comes to an end, and in the end a failed
    call has been reported. What fails next to helper threads does terminate
    the process. -/
theorem failures_surface {o : RankOp} {st : RankState D}
    {s : Crew.State Nat Addr UInt8 (Local D Host)}
    (h : (Crew.system failure (o.threaded pg) st).Reach Crew.Harmless s) :
    s.terminated = false ∧ Acc (fun y x => ∃ a, Crew.Step failure x a y) s ∧
      (Crew.Over failure s → s.failed = true → o.Reported s) ∧
      ∀ a s', Crew.Step failure s a s' → (s'.terminated = true ↔ ¬ Crew.Harmless s a) :=
  ⟨(reported_of_reach h).1, Crew.acc _ _ _ _ _, (reported_of_reach h).2,
    fun _ _ hs => hs.terminated_iff⟩

end main

/-- A broadcast of one element from rank 0. -/
def smallBroadcast : RankOp := .broadcast 0 [userTensor .Float 0 1]

/-- The receiving rank finishes its work with the exception. -/
theorem failures_surface_recv : ∃ s,
    (Crew.system failure (smallBroadcast.threaded ⟨1, 2⟩) (freshState 1)).Reach Crew.Harmless s ∧
      s.failed = true ∧ smallBroadcast.Reported s := by
  have h0 : (Crew.system failure (smallBroadcast.threaded ⟨1, 2⟩) (freshState 1)).Reach Crew.Harmless
    ⟨freshState 1, smallBroadcast.threaded ⟨1, 2⟩, false, false⟩ := .init rfl
  have h1 := h0.next (Crew.Step.own_fails ⟨_, rfl, fun _ _ => rfl⟩) ⟨by decide, by decide⟩
  have h2 := h1.next Crew.Step.act ⟨by decide, by decide⟩
  refine ⟨_, h2, rfl, (failures_surface h2).2.2.1 (fun a s' hs => ?_) rfl⟩
  nomatch hs

/-- The sending rank is terminated. -/
theorem failures_terminate : ∃ s,
    (Crew.system failure (smallBroadcast.threaded ⟨0, 2⟩) (freshState 0)).Reachable s ∧
      s.terminated = true := by
  have h0 : (Crew.system failure (smallBroadcast.threaded ⟨0, 2⟩) (freshState 0)).Reachable
    ⟨freshState 0, smallBroadcast.threaded ⟨0, 2⟩, false, false⟩ := .init rfl
  have h1 := h0.next (Crew.Step.helper_fails (i := 0) rfl ⟨_, rfl, fun _ _ => rfl⟩)
  exact ⟨_, h1, rfl⟩

end Mccl
