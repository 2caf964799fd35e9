import Mccl.Backend.ElementTypes

/-! # What an Allreduce Does Not Touch

    An allreduce writes to its scratch and to the elements of the tensor that
    it counts. Whatever comes after them in the tensor's buffer stays as it
    is, on every rank, in every state of every run, and whether or not the call
    raises (`AllreduceAlgo.run_confined`).

    This needs the kernels to be those of the type: the `bf16` kernels would
    write two bytes for every element of a smaller type. -/

namespace Mccl

open ForkJoin Arrays

variable {D : Device UInt8}

/-! ## Regions -/

/-- The command writes in `A` only. -/
def Cmd.WritesIn (A : Addr → Prop) (c : Cmd D) : Prop := ∀ m a, ¬A a → c.exec m a = m a

theorem Cmd.binary_writesIn {A : Addr → Prop} {k : BinaryOp} {f : Format} {dst src : Addr}
    {count : Nat} (h : ∀ a ∈ span dst (count * (D.codec f).size), A a) :
    (Cmd.binary k f dst src count : Cmd D).WritesIn A := by
  intro m a ha
  rw [Cmd.exec]
  exact store_frame fun hmem => ha (h a hmem)

theorem Cmd.scale_writesIn {A : Addr → Prop} {f : Format} {buf : Addr} {factor : D.F f}
    {count : Nat} (h : ∀ a ∈ span buf (count * (D.codec f).size), A a) :
    (Cmd.scale f buf factor count : Cmd D).WritesIn A := by
  intro m a ha
  rw [Cmd.exec]
  exact store_frame fun hmem => ha (h a hmem)

/-- Outside `A` the memory is `m`, and no command that waits will change
    that. -/
structure Spared (A : Addr → Prop) (m : Addr → UInt8) (s : RankState D) : Prop where
  mem : ∀ a, ¬A a → s.mem a = m a
  committed : ∀ c ∈ s.aux.metal.committed.flatten, c.WritesIn A
  batch : ∀ cs, s.aux.metal.batch_cmd = some cs → ∀ c ∈ cs, c.WritesIn A

section spared
variable {A : Addr → Prop} {m : Addr → UInt8} {s : RankState D}

theorem Spared.of_idle (h : s.aux.metal.Idle) : Spared A s.mem s where
  mem := fun _ _ => rfl
  committed := fun c hc => by simp [h.committed] at hc
  batch := fun cs hcs => by simp [h.batch] at hcs

theorem Spared.drain (h : Spared A m s) : Spared A m (drain s) where
  mem := fun a ha => (execAll_frame (fun c hc m => h.committed c hc m a ha) _).trans (h.mem a ha)
  committed := fun c hc => by simp [Mccl.drain, setMetal] at hc
  batch := h.batch

theorem Spared.dispatch (h : Spared A m s) {c : Cmd D} (hc : c.WritesIn A) :
    Spared A m (setMetal s (s.aux.metal.dispatch c)) := by
  unfold Metal.dispatch
  split
  · rename_i cs hcs
    refine ⟨h.mem, h.committed, fun cs' hcs' c' hc' => ?_⟩
    cases hcs'
    rcases List.mem_append.mp hc' with hc' | hc'
    · exact h.batch cs hcs c' hc'
    · rwa [List.mem_singleton.mp hc']
  · refine ⟨h.mem, fun c' hc' => ?_, h.batch⟩
    rw [setMetal, List.flatten_append, List.mem_append] at hc'
    rcases hc' with hc' | hc'
    · exact h.committed c' hc'
    · rwa [show c' = c by simpa using hc']

theorem fork_confined {ts : List (Thread Nat Addr)} (h : ∀ t ∈ ts, ∀ a ∈ t.writes, A a) :
    (.fork ts : RankProg D Unit).Confined (Spared A m) := by
  refine ⟨fun s m' hs hm' => ⟨fun a ha => ?_, hs.committed, hs.batch⟩, trivial⟩
  exact (hm' a fun t ht hat => ha (h t ht a hat)).trans (hs.mem a ha)

theorem send_confined (peer : Nat) (src : List Addr) :
    (.fork [[.send peer src]] : RankProg D Unit).Confined (Spared A m) :=
  fork_confined (by simp)

theorem recv_confined (peer : Nat) {dst : List Addr} (h : ∀ a ∈ dst, A a) :
    (.fork [[.recv peer dst]] : RankProg D Unit).Confined (Spared A m) :=
  fork_confined (by simpa using h)

theorem exchange_confined (next prev : Nat) (src : List Addr) {dst : List Addr}
    (h : ∀ a ∈ dst, A a) :
    (.fork [[.send next src], [.recv prev dst]] : RankProg D Unit).Confined (Spared A m) :=
  fork_confined (by simpa using h)

theorem drain_confined : (mccl_queue_drain : RankProg D Unit).Confined (Spared A m) :=
  .modify fun _ hs => hs.drain

theorem metal_reduce_op_view_confined {dst src : MPSBufferView} {dtype : ScalarType} {count : Nat}
    {op : RedOpType} (h : ∀ c k f, select_op_pipeline c dtype op = some (k, f) →
      (Cmd.binary k f dst.addr src.addr count : Cmd D).WritesIn A) :
    (metal_reduce_op_view dst src dtype count op : RankProg D Unit).Confined (Spared A m) := by
  refine .get_bind fun s _ => .bind (.check _ _) fun _ => ?_
  split
  · trivial
  · rename_i k f hsel
    exact .bind (.modify fun _ hs => hs.dispatch (h _ k f hsel)) fun _ => drain_confined

theorem metal_scale_inplace_view_confined {buf : MPSBufferView} {dtype : ScalarType} {count : Nat}
    {scale : D.Double} (h : ∀ c f, select_scale_pipeline c dtype = some f →
      (Cmd.scale f buf.addr (D.viewFactor scale f) count : Cmd D).WritesIn A) :
    (metal_scale_inplace_view buf dtype count scale : RankProg D Unit).Confined (Spared A m) := by
  refine .get_bind fun s _ => .bind (.check _ _) fun _ => ?_
  split
  · trivial
  · rename_i f hsel
    exact .bind (.modify fun _ hs => hs.dispatch (h _ f hsel)) fun _ => drain_confined

theorem byte_ptr_confined {v : MPSBufferView} {offset : Nat} {α : Type}
    {g : Addr → RankProg D α} (h : (g (v.mtl_buffer, v.byte_offset + offset)).Confined (Spared A m)) :
    (byte_ptr v offset >>= g).Confined (Spared A m) := by
  unfold byte_ptr MPSBufferView.cpu_ptr
  split
  · trivial
  · rename_i p hp
    split at hp
    · cases hp
      exact h
    · cases hp

end spared

/-! ## The counted elements -/

/-- Everything but the part of the tensor's buffer that comes after the
    counted elements. -/
def AllreduceArgs.Region (args : AllreduceArgs) (a : Addr) : Prop :=
  a.1 = args.t_view.mtl_buffer → a.2 < args.t_view.byte_offset + args.nbytes

section algorithms
variable {args : AllreduceArgs} {op : RedOpType} {r w : Nat} {m : Addr → UInt8}

theorem region_of_scratch {a : Addr} (h : a.1 = args.recv_view.mtl_buffer) : args.Region a :=
  fun ht => absurd (h.symm.trans ht) args.fresh

theorem region_of_span {offset len : Nat} (h : offset + len ≤ args.nbytes) {a : Addr}
    (ha : a ∈ span (args.t_view.mtl_buffer, args.t_view.byte_offset + offset) len) :
    args.Region a := by
  intro _
  have hlt := (mem_span.mp ha).2.2
  dsimp only at hlt
  omega

/-- A chunk ends where the tensor does, at the latest. -/
theorem chunkize_end_le (i : Nat) :
    (chunkize args.numel args.esize w i).byte_off + (chunkize args.numel args.esize w i).byte_len ≤
      args.nbytes := by
  simp only [chunkize, AllreduceArgs.nbytes]
  rw [← Nat.add_mul]
  apply Nat.mul_le_mul_right
  have hle : i * per_chunk args.numel w ≤ (i + 1) * per_chunk args.numel w :=
    Nat.mul_le_mul_right _ (Nat.le_succ i)
  omega

/-- The elements of a kernel whose format is that of the type. -/
theorem region_of_format {f : Format} (hf : args.dtype.format = some f) (offset : Nat) {count : Nat}
    (h : offset + count * args.esize ≤ args.nbytes) {a : Addr}
    (ha : a ∈ span (args.t_view.mtl_buffer, args.t_view.byte_offset + offset)
      (count * (D.codec f).size)) : args.Region a := by
  rw [D.codec_size, format_size hf] at ha
  exact region_of_span h ha

theorem reduce_confined (htyped : TypedPipeline args.dtype op) (offset : Nat) {count : Nat}
    (h : offset + count * args.esize ≤ args.nbytes) (src : MPSBufferView) :
    (metal_reduce_op_view (view_at args.t_view offset) src args.dtype count op :
      RankProg D Unit).Confined (Spared args.Region m) := by
  apply metal_reduce_op_view_confined
  intro c k f hsel
  have hf := (select_op_pipeline_typed htyped hsel).2
  exact Cmd.binary_writesIn fun a ha => region_of_format hf _ h ha

theorem average_confined :
    (average args op w : RankProg D Unit).Confined (Spared args.Region m) := by
  unfold average
  split
  · apply metal_scale_inplace_view_confined
    intro c f hsel
    apply Cmd.scale_writesIn
    intro a ha
    exact region_of_format (select_scale_pipeline_sound hsel).1 0 (Nat.le_of_eq (Nat.zero_add _)) ha
  · trivial

theorem allreduce_ring_confined (htyped : TypedPipeline args.dtype op) :
    (allreduce_ring args op r w : RankProg D Unit).Confined (Spared args.Region m) := by
  refine .bind (.check _ _) fun _ => .bind (.forM fun j _ => ?_) fun _ =>
    .bind (.forM fun j _ => ?_) fun _ => average_confined
  · -- Chunks arrive in the scratch, and are reduced from there.
    refine byte_ptr_confined (byte_ptr_confined (.bind ?_ fun _ => ?_))
    · exact exchange_confined _ _ _ fun a ha => region_of_scratch (mem_span.mp ha).1
    · exact reduce_confined htyped _ (chunkize_end_le _) _
  · refine byte_ptr_confined (byte_ptr_confined ?_)
    exact exchange_confined _ _ _ fun a ha => region_of_span (chunkize_end_le _) ha

theorem region_of_all {a : Addr}
    (ha : a ∈ span (args.t_view.mtl_buffer, args.t_view.byte_offset + 0) args.nbytes) :
    args.Region a :=
  region_of_span (Nat.le_of_eq (Nat.zero_add _)) ha

theorem tree_reduce_confined (htyped : TypedPipeline args.dtype op) (masks : List Nat)
    (active : Bool) :
    (tree_reduce args op r w masks active : RankProg D Unit).Confined (Spared args.Region m) := by
  induction masks generalizing active with
  | nil => trivial
  | cons mask masks ih =>
    rw [tree_reduce]
    split
    · trivial
    · split
      · exact byte_ptr_confined (.bind (send_confined _ _) fun _ => ih false)
      · dsimp only
        split
        · refine byte_ptr_confined (.bind ?_ fun _ => .bind ?_ fun _ => ih true)
          · exact recv_confined _ fun a ha => region_of_scratch (mem_span.mp ha).1
          · exact reduce_confined htyped 0 (Nat.le_of_eq (Nat.zero_add _)) _
        · exact ih true

theorem allreduce_tree_confined (htyped : TypedPipeline args.dtype op) :
    (allreduce_tree args op r w : RankProg D Unit).Confined (Spared args.Region m) := by
  refine .bind (tree_reduce_confined htyped _ _) fun _ => .bind (.forM fun mask _ => ?_) fun _ =>
    average_confined
  unfold tree_broadcast_step
  dsimp only
  split
  · exact byte_ptr_confined (send_confined _ _)
  · split
    · exact byte_ptr_confined (recv_confined _ fun a ha => region_of_all ha)
    · trivial

theorem scatter_threads_region {t recv : Addr} (hrecv : recv.1 = args.recv_view.mtl_buffer)
    (ps : List Nat) (slot : Nat) :
    ∀ th ∈ butterfly_scatter_threads args r w t recv ps slot, ∀ a ∈ th.writes, args.Region a := by
  induction ps generalizing slot with
  | nil => simp [butterfly_scatter_threads]
  | cons p ps ih =>
    rw [butterfly_scatter_threads]
    split
    · exact ih slot
    · simp only [List.forall_mem_cons, mesh_send, mesh_recv, Thread.writes_send, Thread.writes_recv,
        Thread.writes_nil, List.append_nil, List.not_mem_nil, false_imp_iff, implies_true, true_and]
      exact ⟨fun a ha => region_of_scratch ((mem_span.mp ha).1.trans hrecv), ih (slot + 1)⟩

theorem gather_threads_region (ps : List Nat) :
    ∀ th ∈ butterfly_gather_threads args r w
      (args.t_view.mtl_buffer, args.t_view.byte_offset + 0) ps, ∀ a ∈ th.writes, args.Region a := by
  induction ps with
  | nil => simp [butterfly_gather_threads]
  | cons p ps ih =>
    rw [butterfly_gather_threads]
    split
    · exact ih
    · simp only [List.forall_mem_cons, mesh_send, mesh_recv, Thread.writes_send, Thread.writes_recv,
        Thread.writes_nil, List.append_nil, List.not_mem_nil, false_imp_iff, implies_true, true_and]
      exact ⟨fun a ha => region_of_span (chunkize_end_le _) ha, ih⟩

theorem allreduce_butterfly_confined (htyped : TypedPipeline args.dtype op) :
    (allreduce_butterfly args op r w : RankProg D Unit).Confined (Spared args.Region m) := by
  refine .bind (.check _ _) fun _ => .bind (.check _ _) fun _ => byte_ptr_confined
    (byte_ptr_confined (.bind (fork_confined ?_) fun _ => .bind (.forM fun slot _ => ?_) fun _ =>
      .bind (fork_confined ?_) fun _ => average_confined))
  · exact scatter_threads_region rfl _ _
  · exact reduce_confined htyped _ (chunkize_end_le _) _
  · exact gather_threads_region _

/-- **What comes after the counted elements is not touched.** -/
theorem AllreduceAlgo.run_confined (alg : AllreduceAlgo) (htyped : TypedPipeline args.dtype op) :
    (alg.run args op r w : RankProg D Unit).Confined (Spared args.Region m) := by
  cases alg with
  | ring => exact allreduce_ring_confined htyped
  | tree => exact allreduce_tree_confined htyped
  | butterfly => exact allreduce_butterfly_confined htyped

end algorithms

end Mccl
