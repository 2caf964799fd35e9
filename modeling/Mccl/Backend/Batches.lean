import Mccl.Backend.Collectives

/-! # Batches of Kernels

    What a call of a rank leaves behind in `batch_cmd`, whatever the other ranks
    do.

    * `RankOp.Leaks`: the calls that raise while their batch is open.
    * **Main result** (`kernels_run_iff`): after any sequence of calls on a rank,
      later kernels run before their call returns, and a batch can be begun, if
      and only if no call of the sequence leaked. -/

namespace Mccl

open ForkJoin Arrays
open Proc (ret_bind check_pos wp_bind wp_then wp_mono wp_get wp_check)

/-! ## Reduce-scatter and the batch -/

section reduce_scatter
variable {D : Device UInt8} {op : RedOpType} {r w : Nat} {s : RankState D}

/-- A batch is open in `s` if and only if `L` holds. -/
structure BatchAfter (c : KernelCache) (L : Prop) (s : RankState D) : Prop where
  cache : s.aux.metal.cache = c
  open_iff : s.aux.metal.batch_cmd.isSome = true ↔ L

theorem BatchAfter.steady {c : KernelCache} {L : Prop} {s s' : RankState D} (h : BatchAfter c L s)
    (hs : Steady s s') : BatchAfter c L s' :=
  ⟨hs.cache.trans h.cache, by rw [hs.batch]; exact h.open_iff⟩

theorem BatchAfter.of_closed {L : Prop} (hclosed : s.aux.metal.batch_cmd = none) (hL : ¬ L) :
    BatchAfter s.aux.metal.cache L s :=
  ⟨rfl, by simp [hclosed, hL]⟩

theorem BatchAfter.closed {c : KernelCache} {L : Prop} (h : BatchAfter c L s) (hL : ¬ L) :
    s.aux.metal.batch_cmd = none := by
  have := h.open_iff
  simpa [hL] using this

theorem BatchAfter.congr {c : KernelCache} {L L' : Prop} (h : BatchAfter c L s) (hL : L ↔ L') :
    BatchAfter c L' s :=
  ⟨h.cache, h.open_iff.trans hL⟩

variable (hpeers : peers r w ≠ []) (hclosed : s.aux.metal.batch_cmd = none)
  (hinit : s.aux.metal.cache.initialized = true)

include hpeers hclosed hinit in
/-- How a reduce-scatter ends: the output is seeded, the shares are exchanged and
    reduced into it. Whether the batch stays open is a matter of the kernels. -/
theorem share_reduce_wp (op : RedOpType) (base : Nat) {t : Tensor} (src : Addr) {n : Nat}
    (threads : List (Thread Nat Addr)) (hn : n = t.nbytes) :
    (do unstage_from_recv t src n
        forM (peers r w) fun p => vector p n
        .fork threads
        reduce_peers r w op t (fun p => empty_like t (base + p)) n : RankProg D Unit).wp
      (fun _ s' => s'.aux.metal.cache = s.aux.metal.cache ∧ s'.aux.metal.batch_cmd = none ∧
        t.Single ∧ t.Encodable s.aux.metal.cache op)
      (fun _ s' => BatchAfter s.aux.metal.cache (t.Single ∧ ¬ t.Encodable s.aux.metal.cache op) s' ∧
        ¬ (t.Single ∧ t.Encodable s.aux.metal.cache op)) s := by
  refine wp_then (unstage_wp t src hn s) (fun _ s₁ h₁ => ?_) fun _ s' hs' => ?_
  · obtain ⟨hs₁, hsingle⟩ := h₁
    refine wp_then (vectors_wp _ _ s₁) (fun _ s₂ hs₂ => ?_) fun _ _ h => h.elim
    rw [wp_bind, Proc.wp_fork]
    intro m
    have hs : Steady s { s₂ with mem := m } := (hs₁.trans hs₂).trans (steady_blind.mem s₂ m)
    have hred := reduce_peers_wp op base (s := { s₂ with mem := m }) hsingle hn hpeers
      (by simpa [hclosed] using hs.batch)
    rw [hs.cache] at hred
    refine wp_mono hred (fun _ s' hs' => ⟨hs'.2.1, hs'.2.2.1, hsingle, hs'.2.2.2⟩)
      fun _ s' hs' => ⟨⟨hs'.2.1, ?_⟩, fun h => hs'.2.2.2 h.2⟩
    simp [hs'.2.2.1, hinit, hs'.2.2.2, hsingle]
  · obtain ⟨rfl, hsingle⟩ := hs'
    exact ⟨.of_closed hclosed fun h => hsingle h.1, fun h => hsingle h.1⟩

/-- The arguments that get `_reduce_scatter_base` to its batch. -/
structure BasePasses (w : Nat) (output input : Tensor) : Prop where
  input_plain : input.Plain
  output_plain : output.Plain
  input_single : input.Single
  nbytes_eq : input.nbytes = output.nbytes * w
  output_single : output.Single

include hpeers hclosed hinit in
theorem _reduce_scatter_base_wp (op : RedOpType) (output input : Tensor) :
    let L := BasePasses w output input ∧ ¬ output.Encodable s.aux.metal.cache op
    (_reduce_scatter_base_body r w op output input).wp
      (fun _ => BatchAfter s.aux.metal.cache L) (fun _ => BatchAfter s.aux.metal.cache L) s := by
  intro L
  have hstart : ∀ {s'}, ¬ BasePasses w output input → Steady s s' →
      BatchAfter s.aux.metal.cache L s' :=
    fun hno hs' => (BatchAfter.of_closed hclosed fun hL => hno hL.1).steady hs'
  refine wp_then (check_mps_wp input _ s) (fun _ s₁ h₁ => ?_) fun _ s₁ h₁ =>
    hstart (fun h => h₁.2 h.input_plain) (h₁.1 ▸ .refl s)
  obtain ⟨rfl, h₁⟩ := h₁
  refine wp_then (check_mps_wp output _ s₁) (fun _ s₂ h₂ => ?_) fun _ s₂ h₂ =>
    hstart (fun h => h₂.2 h.output_plain) (h₂.1 ▸ .refl s₁)
  obtain ⟨rfl, h₂⟩ := h₂
  refine wp_then (stage_wp input s₂) (fun sb s₃ h₃ => ?_) fun _ s₃ h₃ =>
    hstart (fun h => h₃.2 h.input_single) (h₃.1 ▸ .refl s₂)
  obtain ⟨hs₃, h₃, hbytes⟩ := h₃
  rw [wp_bind, wp_check, hbytes]
  refine ⟨fun h₄ => ?_, fun h₄ => hstart (fun h => h₄ h.nbytes_eq) hs₃⟩
  -- All that is left to check is the output.
  have hpasses : BasePasses w output input ↔ output.Single :=
    ⟨fun h => h.output_single, fun h => ⟨h₁, h₂, h₃, h₄, h⟩⟩
  have htail := share_reduce_wp hpeers (s := s₃) (by simpa [hclosed] using hs₃.batch)
    (by rw [hs₃.cache]; exact hinit) op 0 (t := output) (off sb.data (r * output.nbytes))
    ((peers r w).map fun p => [mesh_send p (off sb.data (p * output.nbytes)) output.nbytes,
      mesh_recv p (heap p) output.nbytes]) rfl
  simp only [Nat.zero_add, hs₃.cache] at htail
  refine wp_mono htail (fun _ s' hs' => ⟨hs'.1, ?_⟩) fun _ s' hs' => hs'.1.congr ?_
  · simp [hs'.2.1, L, hs'.2.2.2]
  · rw [← hpasses]

/-- The arguments that get a round of `reduce_scatter` to its batch. -/
structure RoundPasses (w : Nat) (out : Tensor) (ins : List Tensor) : Prop where
  length_eq : ins.length = w
  out_plain : out.Plain
  ins_ok : ∀ t ∈ ins, t.Plain ∧ t.Single
  nbytes_eq : out.nbytes = (entry ins 0).nbytes
  out_single : out.Single

theorem reduce_scatter_stage_wp (ins : List Tensor) (p : Nat) (s : RankState D) :
    (reduce_scatter_stage ins p).wp
      (fun sb s' => Steady s s' ∧ ((entry ins p).Plain ∧ (entry ins p).Single) ∧
        sb.nbytes = (entry ins p).nbytes)
      (fun _ s' => s' = s ∧ ¬ ((entry ins p).Plain ∧ (entry ins p).Single)) s := by
  refine wp_then (check_mps_wp _ _ s) (fun _ s₁ h₁ => ?_) fun _ _ h => ⟨h.1, fun h' => h.2 h'.1⟩
  obtain ⟨rfl, hplain⟩ := h₁
  exact wp_mono (stage_wp _ s₁) (fun _ _ h => ⟨h.1, ⟨hplain, h.2.1⟩, h.2.2⟩)
    fun _ _ h => ⟨h.1, fun h' => h.2 h'.2⟩

include hpeers hclosed hinit in
theorem reduce_scatter_one_wp (op : RedOpType) (i : Nat) (out : Tensor) (ins : List Tensor) :
    (reduce_scatter_one r w op i out ins).wp
      (fun _ s' => s'.aux.metal.cache = s.aux.metal.cache ∧ s'.aux.metal.batch_cmd = none ∧
        RoundPasses w out ins ∧ out.Encodable s.aux.metal.cache op)
      (fun _ s' => BatchAfter s.aux.metal.cache
          (RoundPasses w out ins ∧ ¬ out.Encodable s.aux.metal.cache op) s' ∧
        ¬ (RoundPasses w out ins ∧ out.Encodable s.aux.metal.cache op)) s := by
  have hstart : ∀ {s'}, ¬ RoundPasses w out ins → Steady s s' →
      BatchAfter s.aux.metal.cache
        (RoundPasses w out ins ∧ ¬ out.Encodable s.aux.metal.cache op) s' ∧
      ¬ (RoundPasses w out ins ∧ out.Encodable s.aux.metal.cache op) :=
    fun hno hs' => ⟨(BatchAfter.of_closed hclosed fun hL => hno hL.1).steady hs', fun h => hno h.1⟩
  rw [reduce_scatter_one, wp_bind, wp_check]
  refine ⟨fun h₁ => ?_, fun h₁ => hstart (fun h => h₁ h.length_eq) (.refl s)⟩
  refine wp_then (check_mps_wp out _ s) (fun _ s₁ h₂ => ?_) fun _ s₁ h₂ =>
    hstart (fun h => h₂.2 h.out_plain) (h₂.1 ▸ .refl s)
  obtain ⟨rfl, h₂⟩ := h₂
  refine wp_then (Proc.wp_mapM (I := Steady s₁) (A := fun p sb =>
      ((entry ins p).Plain ∧ (entry ins p).Single) ∧ sb.nbytes = (entry ins p).nbytes)
    (fun p hp s' hs' => ?_) (.refl s₁)) (fun sbs s₂ hs₂ => ?_) fun _ _ h => h
  · -- A tensor that does not pass ends the staging.
    have hmem : entry ins p ∈ ins := entry_mem (h₁ ▸ List.mem_range.mp hp)
    refine wp_mono (reduce_scatter_stage_wp ins p s') (fun _ _ h => ⟨hs'.trans h.1, h.2⟩)
      fun _ _ h => hstart (fun h' => h.2 (h'.ins_ok _ hmem)) (h.1 ▸ hs')
  obtain ⟨hs₂, hsbs⟩ := hs₂
  have hw : 0 < w := by
    obtain ⟨p, hp⟩ := List.exists_mem_of_ne_nil _ hpeers
    exact Nat.zero_lt_of_lt (mem_peers.mp hp).1
  have hentry := fun p (hp : p < w) => getD_of_forall₂ default hsbs hp
  have h₃ : ∀ t ∈ ins, t.Plain ∧ t.Single := by
    intro t ht
    obtain ⟨p, hp, rfl⟩ := List.getElem_of_mem ht
    have := (hentry p (h₁ ▸ hp)).1
    rwa [entry, List.getD_eq_getElem _ _ hp] at this
  dsimp only
  rw [wp_bind, wp_check, (hentry 0 hw).2]
  refine ⟨fun h₄ => ?_, fun h₄ => hstart (fun h => h₄ h.nbytes_eq) hs₂⟩
  have hpasses : RoundPasses w out ins ↔ out.Single :=
    ⟨fun h => h.out_single, fun h => ⟨h₁, h₂, h₃, h₄, h⟩⟩
  have htail := share_reduce_wp hpeers (s := s₂) (by simpa [hclosed] using hs₂.batch)
    (by rw [hs₂.cache]; exact hinit) op (i * w) (sbs.getD r default).data ((peers r w).map fun p =>
      [mesh_send p (sbs.getD p default).data (entry ins 0).nbytes,
        mesh_recv p (heap p) (entry ins 0).nbytes]) h₄.symm
  rwa [hs₂.cache, ← hpasses] at htail

/-- The first round that does not get past its reduction fails inside the
    batch. -/
def ListLeaks (w : Nat) (op : RedOpType) (c : KernelCache) (outputs : List Tensor)
    (inputs : List (List Tensor)) : Prop :=
  outputs.length = inputs.length ∧ ∃ i < outputs.length,
    (RoundPasses w (entry outputs i) (inputs.getD i []) ∧ ¬ (entry outputs i).Encodable c op) ∧
    ∀ i' < i, RoundPasses w (entry outputs i') (inputs.getD i' []) ∧ (entry outputs i').Encodable c op

include hpeers hclosed hinit in
theorem reduce_scatter_wp (op : RedOpType) (outputs : List Tensor) (inputs : List (List Tensor)) :
    let L := ListLeaks w op s.aux.metal.cache outputs inputs
    (reduce_scatter_body r w op outputs inputs).wp
      (fun _ => BatchAfter s.aux.metal.cache L) (fun _ => BatchAfter s.aux.metal.cache L) s := by
  intro L
  rw [reduce_scatter_body, wp_bind, wp_check]
  refine ⟨fun hlen => ?_, fun hlen => .of_closed hclosed fun hL => hlen hL.1⟩
  -- The rounds so far got past their reductions, so the batch is closed.
  refine wp_mono (Proc.wp_forM_range (I := fun i s' =>
      s'.aux.metal.cache = s.aux.metal.cache ∧ s'.aux.metal.batch_cmd = none ∧
      ∀ i' < i, RoundPasses w (entry outputs i') (inputs.getD i' []) ∧
        (entry outputs i').Encodable s.aux.metal.cache op)
    (E := fun _ => BatchAfter s.aux.metal.cache L) (fun i hi s' hs' => ?_)
    ⟨rfl, hclosed, fun _ h => absurd h (Nat.not_lt_zero _)⟩) (fun _ s' hs' => ?_) fun _ _ h => h
  · have hone := reduce_scatter_one_wp hpeers hs'.2.1 (by rw [hs'.1]; exact hinit) op i
      (entry outputs i) (inputs.getD i [])
    rw [hs'.1] at hone
    refine wp_mono hone (fun _ s'' hs'' => ⟨hs''.1, hs''.2.1, fun i' hi' => ?_⟩)
      fun _ s'' hs'' => ⟨hs''.1.cache, hs''.1.open_iff.trans ⟨fun h => ?_, fun hL => ?_⟩⟩
    · rcases Nat.lt_succ_iff_lt_or_eq.mp hi' with hlt | rfl
      · exact hs'.2.2 i' hlt
      · exact hs''.2.2
    · exact ⟨hlen, i, hi, h, hs'.2.2⟩
    · obtain ⟨-, j, -, hj, hbefore⟩ := hL
      rcases Nat.lt_trichotomy j i with hlt | rfl | hlt
      · exact absurd (hs'.2.2 j hlt).2 hj.2
      · exact hj
      · exact absurd (hbefore i hlt) hs''.2
  · refine ⟨hs'.1, ?_⟩
    simp only [hs'.2.1, Option.isSome_none, Bool.false_eq_true, false_iff]
    rintro ⟨-, j, hj, hfail, -⟩
    exact hfail.2 (hs'.2.2 j hj).2

/-! ### With a batch open -/

/-- A batch is open. -/
abbrev BatchOpen (c : KernelCache) : RankState D → Prop := BatchAfter c True

theorem preserves_of_keeps {α : Type} {p : RankProg D α} (h : p.Keeps Steady) (c : KernelCache)
    (L : Prop) : p.Preserves (BatchAfter c L) :=
  .of_keeps h steady_blind fun _ _ hs hb => hb.steady hs

theorem reduce_peers_preserves (t : Tensor) (tmp : Nat → Tensor) (n : Nat) (c : KernelCache) :
    (reduce_peers r w op t tmp n : RankProg D Unit).Preserves (BatchOpen c) := fun _ hs =>
  wp_mono (reduce_peers_open (hs.open_iff.mpr trivial)) (fun _ _ h => h.elim)
    fun _ _ hs' => hs' ▸ hs

theorem preserves_bind {α : Type} {p : RankProg D α} {q : α → RankProg D Unit} {c : KernelCache}
    (hp : p.Keeps Steady) (hq : ∀ a, (q a).Preserves (BatchOpen c)) :
    (p >>= q).Preserves (BatchOpen c) := .bind (preserves_of_keeps hp c _) hq

theorem _reduce_scatter_base_open (output input : Tensor) (c : KernelCache) :
    (_reduce_scatter_base_body r w op output input : RankProg D Unit).Preserves (BatchOpen c) :=
  preserves_bind (check_mps_keeps _ _) fun _ => preserves_bind (check_mps_keeps _ _) fun _ =>
    preserves_bind (stage_keeps _) fun _ => preserves_bind (.check _ _) fun _ =>
    preserves_bind (unstage_keeps _ _ _) fun _ =>
    preserves_bind (.forM fun _ _ => vector_keeps _ _) fun _ =>
    preserves_bind (p := .fork _) trivial fun _ => reduce_peers_preserves _ _ _ c

theorem reduce_scatter_open (outputs : List Tensor) (inputs : List (List Tensor)) (c : KernelCache) :
    (reduce_scatter_body r w op outputs inputs : RankProg D Unit).Preserves (BatchOpen c) :=
  preserves_bind (.check _ _) fun _ => .forM fun _ _ =>
    preserves_bind (.check _ _) fun _ => preserves_bind (check_mps_keeps _ _) fun _ =>
    preserves_bind (.mapM fun _ _ => .bind (check_mps_keeps _ _) fun _ => stage_keeps _) fun _ =>
    preserves_bind (.check _ _) fun _ => preserves_bind (unstage_keeps _ _ _) fun _ =>
    preserves_bind (.forM fun _ _ => vector_keeps _ _) fun _ =>
    preserves_bind (p := .fork _) trivial fun _ => reduce_peers_preserves _ _ _ c

end reduce_scatter

/-! ## The calls of a rank -/

section steady_bodies
variable {D : Device UInt8} (r w : Nat)

theorem copy_keeps (dst src : Tensor) : (copy_ dst src : RankProg D Unit).Keeps Steady :=
  memcpy_keeps _ _ _

theorem finish_keeps (sync_cb : Bool) : (finish sync_cb : RankProg D Unit).Keeps Steady :=
  .modify fun _ => by split <;> exact ⟨rfl, rfl, rfl⟩

theorem finishWithException_keeps (msg : String) :
    (finishWithException msg : RankProg D Unit).Keeps Steady :=
  .modify fun _ => ⟨rfl, rfl, rfl⟩

theorem fork_keeps (ts : List (Thread Nat Addr)) : (.fork ts : RankProg D Unit).Keeps Steady :=
  trivial

theorem broadcast_keeps (root : Nat) (tensors : List Tensor) :
    (broadcast_body r w root tensors : RankProg D Unit).Keeps Steady := by
  refine .forM fun i _ => .bind (check_mps_keeps _ _) fun _ => ?_
  split
  · exact .bind (stage_keeps _) fun _ => fork_keeps _
  · refine .bind (extract_mps_buffer_keeps _) fun v => ?_
    split <;> trivial

theorem _allgather_base_keeps (output input : Tensor) :
    (_allgather_base_body r w output input : RankProg D Unit).Keeps Steady :=
  .bind (check_mps_keeps _ _) fun _ => .bind (check_mps_keeps _ _) fun _ =>
    .bind (stage_keeps _) fun _ => .bind (.check _ _) fun _ => .bind (vector_keeps _ _) fun _ =>
    .bind (memcpy_keeps _ _ _) fun _ => .bind (fork_keeps _) fun _ => unstage_keeps _ _ _

theorem allgather_keeps (outputs : List (List Tensor)) (inputs : List Tensor) :
    (allgather_body r w outputs inputs : RankProg D Unit).Keeps Steady :=
  .bind (.check _ _) fun _ => .forM fun _ _ =>
    .bind (.check _ _) fun _ => .bind (check_mps_keeps _ _) fun _ =>
    .bind (.forM fun _ _ => check_mps_keeps _ _) fun _ => .bind (stage_keeps _) fun _ =>
    .bind (.forM fun _ _ => vector_keeps _ _) fun _ => .bind (fork_keeps _) fun _ =>
    .bind (unstage_keeps _ _ _) fun _ => .forM fun _ _ => unstage_keeps _ _ _

theorem check_blocks_keeps (t : Tensor) (splits : List Int) (which : String) :
    (check_blocks t splits w which : RankProg D Unit).Keeps Steady := by
  unfold check_blocks
  split <;> exact .check _ _

theorem alltoall_base_keeps (output input : Tensor) (output_split_sizes input_split_sizes : List Int) :
    (alltoall_base_body r w output input output_split_sizes input_split_sizes :
      RankProg D Unit).Keeps Steady :=
  .bind (check_mps_keeps _ _) fun _ => .bind (check_mps_keeps _ _) fun _ =>
    .bind (stage_keeps _) fun _ => .bind (.check _ _) fun _ =>
    .bind (check_blocks_keeps _ _ _ _) fun _ => .bind (check_blocks_keeps _ _ _ _) fun _ =>
    .bind (vector_keeps _ _) fun _ => .bind (.check _ _) fun _ => .bind (memcpy_keeps _ _ _) fun _ =>
    .bind (fork_keeps _) fun _ => unstage_keeps _ _ _

theorem alltoall_stage_keeps (outs ins : List Tensor) (p : Nat) :
    (alltoall_stage r outs ins p : RankProg D StagingBuffer).Keeps Steady := by
  refine .bind (check_mps_keeps _ _) fun _ => .bind (check_mps_keeps _ _) fun _ =>
    .bind (stage_keeps _) fun _ => ?_
  split
  · trivial
  · exact .bind (vector_keeps _ _) fun _ => trivial

theorem alltoall_keeps (outs ins : List Tensor) :
    (alltoall_body r w outs ins : RankProg D Unit).Keeps Steady :=
  .bind (.mapM fun _ _ => alltoall_stage_keeps _ _ _ _) fun _ => .bind (unstage_keeps _ _ _) fun _ =>
    .bind (fork_keeps _) fun _ => .forM fun _ _ => unstage_keeps _ _ _

theorem send_keeps (dst_rank : Nat) (tag : Int32) (t : Tensor) :
    (send_tensor dst_rank tag t : RankProg D Unit).Keeps Steady :=
  .bind (check_mps_keeps _ _) fun _ => .bind (stage_keeps _) fun _ =>
    .bind (.modify fun _ => ⟨rfl, rfl, rfl⟩) fun _ => .bind (fork_keeps _) fun _ => fork_keeps _

theorem recv_keeps (src_rank : Nat) (tag : Int32) (t : Tensor) :
    (recv_tensor src_rank tag t : RankProg D Unit).Keeps Steady :=
  .bind (check_mps_keeps _ _) fun _ => .bind (vector_keeps _ _) fun _ => .bind (fork_keeps _) fun _ =>
    .bind (.get steady_blind) fun _ => .bind (.check _ _) fun _ => .bind (.check _ _) fun _ =>
    .bind (vector_keeps _ _) fun _ => .bind (fork_keeps _) fun _ => unstage_keeps _ _ _

theorem allreduce_prepare_keeps (env : AllreduceEnv) (t : Tensor) (i : Nat) :
    (allreduce_prepare env w t i : RankProg D AllreducePlan).Keeps Steady := by
  refine .bind (check_mps_keeps _ _) fun _ => .bind ?_ fun wt =>
    .bind (check_single_tensor_keeps _) fun _ => .bind (check_single_tensor_keeps _) fun _ => trivial
  unfold wire_tensor
  split
  · exact .bind (.modify fun _ => ⟨rfl, rfl, rfl⟩) fun _ => trivial
  · trivial

theorem copy_back_keeps (t wt : Tensor) : (copy_back t wt : RankProg D Unit).Keeps Steady := by
  unfold copy_back
  split
  · exact .modify fun _ => ⟨rfl, rfl, rfl⟩
  · trivial

theorem AllreduceAlgo.run_keeps (alg : AllreduceAlgo) (args : AllreduceArgs) (op : RedOpType) :
    (alg.run args op r w : RankProg D Unit).Keeps Steady := by
  cases alg with
  | ring => exact allreduce_ring_keeps _ _ _ _
  | tree => exact allreduce_tree_keeps _ _ _ _
  | butterfly => exact allreduce_butterfly_keeps _ _ _ _

theorem allreduce_keeps (env : AllreduceEnv) (op : RedOpType) (tensors : List Tensor) :
    (allreduce_body env r w op tensors : RankProg D Unit).Keeps Steady :=
  .bind (.mapM fun _ _ => allreduce_prepare_keeps _ _ _ _) fun _ =>
    .bind (.forM fun p _ => AllreduceAlgo.run_keeps _ _ p.alg _ _) fun _ => .bind drain_keeps fun _ =>
    .forM fun _ _ => copy_back_keeps _ _

end steady_bodies

/-- A call of a rank to its process group. -/
inductive RankOp where
  | allreduce (env : AllreduceEnv) (op : RedOpType) (tensors : List Tensor)
  | broadcast (root : Nat) (tensors : List Tensor)
  | _allgather_base (output input : Tensor)
  | allgather (outputs : List (List Tensor)) (inputs : List Tensor)
  | _reduce_scatter_base (op : RedOpType) (output input : Tensor)
  | reduce_scatter (op : RedOpType) (outputs : List Tensor) (inputs : List (List Tensor))
  | alltoall_base (output input : Tensor) (output_split_sizes input_split_sizes : List Int)
  | alltoall (outputs inputs : List Tensor)
  | barrier (rendezvous_ : Option (Except String Unit))
  | send (tensors : List Tensor) (dst_rank : Int) (tag : Int32)
  | recv (tensors : List Tensor) (src_rank : Int) (tag : Int32)

namespace RankOp

variable {D : Device UInt8} (pg : ProcessGroupMCCL)

def call : RankOp → RankCall D
  | allreduce env op tensors => pg.allreduce env op tensors
  | broadcast root tensors => pg.broadcast root tensors
  | _allgather_base output input => pg._allgather_base output input
  | allgather outputs inputs => pg.allgather outputs inputs
  | _reduce_scatter_base op output input => pg._reduce_scatter_base op output input
  | reduce_scatter op outputs inputs => pg.reduce_scatter op outputs inputs
  | alltoall_base output input osplits isplits => pg.alltoall_base output input osplits isplits
  | alltoall outputs inputs => pg.alltoall outputs inputs
  | barrier rendezvous_ => pg.barrier rendezvous_
  | send tensors dst_rank tag => pg.send tensors dst_rank tag
  | recv tensors src_rank tag => pg.recv tensors src_rank tag

/-- The call begins a batch and raises before it has ended the batch. -/
def Leaks (c : KernelCache) : RankOp → Prop
  | _reduce_scatter_base op output input =>
    2 ≤ pg.size ∧ BasePasses pg.size output input ∧ ¬ output.Encodable c op
  | reduce_scatter op outputs inputs => 2 ≤ pg.size ∧ ListLeaks pg.size op c outputs inputs
  | _ => False

end RankOp

section calls
variable {D : Device UInt8} {pg : ProcessGroupMCCL} {c : KernelCache} {L : Prop} {s : RankState D}

theorem async_submit_keeps {body : RankProg D Unit} (h : body.Keeps Steady) (sync_cb : Bool) :
    (async_submit_ body sync_cb).prog.Keeps Steady :=
  .tryCatch (.bind h fun _ => finish_keeps _) finishWithException_keeps

/-- Completing the work is no matter of batches. -/
theorem async_submit_wp {body : RankProg D Unit} (sync_cb : Bool)
    (h : body.wp (fun _ => BatchAfter c L) (fun _ => BatchAfter c L) s) :
    (async_submit_ body sync_cb).prog.wp (fun _ => BatchAfter c L) (fun _ => BatchAfter c L) s := by
  rw [async_submit_, Call.prog, Proc.wp_tryCatch]
  have hfail := fun msg => preserves_of_keeps (D := D) (finishWithException_keeps msg) c L
  refine wp_then h (fun _ s' hs' => ?_) fun msg s' hs' => hfail msg s' hs'
  exact wp_mono (preserves_of_keeps (finish_keeps sync_cb) c L s' hs') (fun _ _ h => h)
    fun msg s'' hs'' => hfail msg s'' hs''

theorem guarded_wp {p : RankProg D Unit} {I : RankState D → Prop}
    (h : p.wp (fun _ => I) (fun _ => I) s) : (guarded p).wp (fun _ => I) (fun _ _ => False) s := by
  rw [guarded, Proc.wp_tryCatch]
  exact wp_mono h (fun _ _ h => h) fun _ _ h => h

theorem inline_copy_keeps (dst src : Tensor) :
    (do copy_ dst src; make_completed : RankProg D Unit).Keeps Steady :=
  .bind (copy_keeps _ _) fun _ => finish_keeps _

namespace RankOp

/-- Only reduce-scatters use batches. -/
def Batched : RankOp → Prop
  | _reduce_scatter_base _ _ _ | reduce_scatter _ _ _ => True
  | _ => False

theorem call_keeps {o : RankOp} (h : ¬ o.Batched) :
    ((o.call pg).prog : RankProg D Unit).Keeps Steady := by
  cases o with
  | allreduce env op tensors =>
    rw [call, ProcessGroupMCCL.allreduce]
    split
    · exact finish_keeps _
    · exact .bind (.check _ _) fun _ => .bind (allreduce_keeps _ _ _ _ _) fun _ => finish_keeps _
  | broadcast root tensors =>
    rw [call, ProcessGroupMCCL.broadcast]
    split
    · exact finish_keeps _
    · split
      · trivial
      · exact async_submit_keeps (broadcast_keeps _ _ _ _) _
  | _allgather_base output input =>
    rw [call, ProcessGroupMCCL._allgather_base]
    split
    · exact inline_copy_keeps _ _
    · exact async_submit_keeps (_allgather_base_keeps _ _ _ _) _
  | allgather outputs inputs =>
    rw [call, ProcessGroupMCCL.allgather]
    split
    · exact .bind (.check _ _) fun _ => inline_copy_keeps _ _
    · exact async_submit_keeps (allgather_keeps _ _ _ _) _
  | _reduce_scatter_base op output input => exact absurd trivial h
  | reduce_scatter op outputs inputs => exact absurd trivial h
  | alltoall_base output input osplits isplits =>
    rw [call, ProcessGroupMCCL.alltoall_base]
    split
    · exact inline_copy_keeps _ _
    · exact async_submit_keeps (alltoall_base_keeps _ _ _ _ _ _) _
  | alltoall outputs inputs =>
    rw [call, ProcessGroupMCCL.alltoall]
    split
    · trivial
    · split
      · exact inline_copy_keeps _ _
      · exact async_submit_keeps (alltoall_keeps _ _ _ _) _
  | barrier rendezvous_ =>
    rw [call]
    unfold ProcessGroupMCCL.barrier
    split
    · exact finish_keeps _
    · split
      · exact finish_keeps _
      · exact async_submit_keeps (show (Proc.ret () : RankProg D Unit).Keeps Steady from trivial) _
      · exact async_submit_keeps (show (Proc.raise _ : RankProg D Unit).Keeps Steady from trivial) _
  | send tensors dst_rank tag =>
    rw [call, ProcessGroupMCCL.send]
    split
    · trivial
    · exact async_submit_keeps (.forM fun _ _ => send_keeps _ _ _) _
  | recv tensors src_rank tag =>
    rw [call, ProcessGroupMCCL.recv]
    split
    · trivial
    · exact async_submit_keeps (.forM fun _ _ => recv_keeps _ _ _) _

theorem call_open (o : RankOp) :
    ((o.call pg).prog : RankProg D Unit).Preserves (BatchOpen c) := by
  by_cases h : o.Batched
  swap
  · exact preserves_of_keeps (call_keeps h) c True
  cases o with
  | _reduce_scatter_base op output input =>
    rw [call, ProcessGroupMCCL._reduce_scatter_base]
    split
    · exact preserves_of_keeps (inline_copy_keeps _ _) c True
    · exact fun s hs => async_submit_wp _ (_reduce_scatter_base_open _ _ c s hs)
  | reduce_scatter op outputs inputs =>
    rw [call, ProcessGroupMCCL.reduce_scatter]
    split
    · exact preserves_of_keeps (.bind (.check _ _) fun _ => inline_copy_keeps _ _) c True
    · exact fun s hs => async_submit_wp _ (reduce_scatter_open _ _ c s hs)
  | _ => exact h.elim

/-- With no batch open, a call leaves one open if and only if it leaks. -/
theorem call_closed (o : RankOp) (hpg : pg.rank < pg.size)
    (hclosed : s.aux.metal.batch_cmd = none) (hinit : s.aux.metal.cache.initialized = true) :
    ((o.call pg).prog : RankProg D Unit).wp
      (fun _ => BatchAfter s.aux.metal.cache (o.Leaks pg s.aux.metal.cache))
      (fun _ => BatchAfter s.aux.metal.cache (o.Leaks pg s.aux.metal.cache)) s := by
  have hkeeps : ((o.call pg).prog : RankProg D Unit).Keeps Steady →
      ¬ o.Leaks pg s.aux.metal.cache →
      ((o.call pg).prog : RankProg D Unit).wp
        (fun _ => BatchAfter s.aux.metal.cache (o.Leaks pg s.aux.metal.cache))
        (fun _ => BatchAfter s.aux.metal.cache (o.Leaks pg s.aux.metal.cache)) s :=
    fun hk hL => preserves_of_keeps hk _ _ s (.of_closed hclosed hL)
  cases o with
  | _reduce_scatter_base op output input =>
    by_cases hsize : pg.size = 1
    · refine hkeeps ?_ fun hL => absurd hL.1 (by omega)
      rw [call, ProcessGroupMCCL._reduce_scatter_base, if_pos hsize]
      exact inline_copy_keeps _ _
    · have h2 : 2 ≤ pg.size := by omega
      have hwp := _reduce_scatter_base_wp (peers_ne_nil (r := pg.rank) h2) hclosed hinit op output input
      rw [call, ProcessGroupMCCL._reduce_scatter_base, if_neg hsize]
      refine wp_mono (async_submit_wp true hwp) ?_ ?_ <;>
        exact fun _ s' hs' => hs'.congr (by simp [Leaks, h2])
  | reduce_scatter op outputs inputs =>
    by_cases hsize : pg.size = 1
    · refine hkeeps ?_ fun hL => absurd hL.1 (by omega)
      rw [call, ProcessGroupMCCL.reduce_scatter, if_pos hsize]
      exact .bind (.check _ _) fun _ => inline_copy_keeps _ _
    · have h2 : 2 ≤ pg.size := by omega
      have hwp := reduce_scatter_wp (peers_ne_nil (r := pg.rank) h2) hclosed hinit op outputs inputs
      rw [call, ProcessGroupMCCL.reduce_scatter, if_neg hsize]
      refine wp_mono (async_submit_wp true hwp) ?_ ?_ <;>
        exact fun _ s' hs' => hs'.congr (by simp [Leaks, h2])
  | _ => exact hkeeps (call_keeps id) id

end RankOp

/-! ## Sequences of calls -/

/-- The calls of a rank, one after the other. -/
def callsOf (pg : ProcessGroupMCCL) (ops : List (Nat × RankOp)) : RankProg D Unit :=
  inOrder (ops.map fun x => (x.1, (x.2.call pg).prog))

/-- What holds of the calls and of what is done between them holds of the whole. -/
theorem inOrder_of {P : RankProg D Unit → Prop} (hret : P (.ret ()))
    (hbind : ∀ {p q : RankProg D Unit}, P p → P q → P (p >>= fun _ => q))
    (hguard : ∀ {p : RankProg D Unit}, P p → P (guarded p)) (htag : ∀ k, P (.modify (setTag k)))
    (pg : ProcessGroupMCCL) {ops : List (Nat × RankOp)} (h : ∀ x ∈ ops, P (x.2.call pg).prog) :
    P (callsOf pg ops) := by
  induction ops with
  | nil => exact hret
  | cons x ops ih =>
    exact hbind (htag x.1) (hbind (hguard (h x (by simp))) (ih fun y hy => h y (by simp [hy])))

theorem callsOf_raceFree {pg : ProcessGroupMCCL} {ops : List (Nat × RankOp)}
    (h : ∀ x ∈ ops, (x.2.call pg : Call Nat Addr UInt8 (Local D Host)).prog.RaceFree) :
    (callsOf pg ops : RankProg D Unit).RaceFree :=
  inOrder_of trivial (fun hp hq => .bind hp fun _ => hq) (fun hp => .tryCatch hp fun _ => trivial)
    (fun _ _ => trivial) pg h

theorem calls_open (ops : List (Nat × RankOp)) (hs : BatchOpen c s) :
    (callsOf pg ops : RankProg D Unit).wp (fun _ => BatchOpen c) (fun _ _ => False) s := by
  induction ops generalizing s with
  | nil => exact hs
  | cons o ops ih =>
    rw [callsOf, List.map_cons, inOrder, wp_bind, Proc.wp_modify, wp_bind]
    exact wp_mono (guarded_wp (I := BatchOpen c) (o.2.call_open _ ⟨hs.cache, hs.open_iff⟩))
      (fun _ s' hs' => ih hs') fun _ _ h => h.elim

/-- Induction on the calls: the first that leaks leaves the batch open for
    good. -/
theorem calls_closed (ops : List (Nat × RankOp)) (hpg : pg.rank < pg.size)
    (hclosed : s.aux.metal.batch_cmd = none) (hinit : s.aux.metal.cache.initialized = true) :
    (callsOf pg ops : RankProg D Unit).wp
      (fun _ => BatchAfter s.aux.metal.cache (∃ o ∈ ops, o.2.Leaks pg s.aux.metal.cache))
      (fun _ _ => False) s := by
  induction ops generalizing s with
  | nil => exact .of_closed hclosed (by simp)
  | cons o ops ih =>
    rw [callsOf, List.map_cons, inOrder, wp_bind, Proc.wp_modify, wp_bind]
    have hcall := o.2.call_closed (D := D) (s := setTag o.1 s) hpg hclosed hinit
    refine wp_mono (guarded_wp hcall) (fun _ s' hs' => ?_) fun _ _ h => h.elim
    have hcache : s'.aux.metal.cache = s.aux.metal.cache := hs'.cache
    by_cases hL : o.2.Leaks pg s.aux.metal.cache
    · have hopen : BatchOpen s.aux.metal.cache s' := hs'.congr (iff_true_intro hL)
      exact wp_mono (calls_open ops hopen) (fun _ s'' hs'' => hs''.congr (by simp [hL]))
        fun _ _ h => h.elim
    · have hrest := ih (s := s') (hs'.closed hL) (by rw [hcache]; exact hinit)
      rw [hcache] at hrest
      exact wp_mono hrest (fun _ s'' hs'' => hs''.congr (by simp [hL])) fun _ _ h => h.elim

/-- From the state `s`, kernels run before their call returns, and a batch can
    be begun. -/
structure KernelsRun (s : RankState D) : Prop where
  reduce : ∀ dst src dtype count op,
    (metal_reduce_op_view dst src dtype count op : RankProg D Unit).wp
      (fun _ s' => ∃ k f, select_op_pipeline s.aux.metal.cache dtype op = some (k, f) ∧
        s'.aux.metal.executed = s.aux.metal.executed ++ s.aux.metal.committed.flatten ++
          [.binary k f dst.addr src.addr count])
      (fun _ _ => True) s
  scale : ∀ buf dtype count scale,
    (metal_scale_inplace_view buf dtype count scale : RankProg D Unit).wp
      (fun _ s' => ∃ f, select_scale_pipeline s.aux.metal.cache dtype = some f ∧
        s'.aux.metal.executed = s.aux.metal.executed ++ s.aux.metal.committed.flatten ++
          [.scale f buf.addr (D.viewFactor scale f) count])
      (fun _ _ => True) s
  begin_batch : (metal_begin_batch : RankProg D Unit).wp (fun _ _ => True) (fun _ _ => False) s

theorem kernelsRun_iff (hinit : s.aux.metal.cache.initialized = true) :
    KernelsRun s ↔ s.aux.metal.batch_cmd = none := by
  constructor
  · intro h
    have hbegin := h.begin_batch
    rw [metal_begin_batch, wp_bind, wp_get, check_pos hinit, ret_bind,
      wp_bind, wp_check] at hbegin
    simpa using hbegin.2
  · intro hclosed
    refine ⟨fun dst src dtype count op => ?_, fun buf dtype count scale => ?_, ?_⟩
    · rw [metal_reduce_op_view, wp_bind, wp_get, check_pos hinit, ret_bind]
      rcases hpso : select_op_pipeline s.aux.metal.cache dtype op with _ | ⟨k, f⟩
      · trivial
      · exact ⟨k, f, rfl, by simp [drain, setMetal, Metal.dispatch, hclosed]⟩
    · rw [metal_scale_inplace_view, wp_bind, wp_get, check_pos hinit, ret_bind]
      rcases hpso : select_scale_pipeline s.aux.metal.cache dtype with _ | f
      · trivial
      · exact ⟨f, rfl, by simp [drain, setMetal, Metal.dispatch, hclosed]⟩
    · rw [metal_begin_batch, wp_bind, wp_get, check_pos hinit, ret_bind,
        check_pos (by simp [hclosed]), ret_bind]
      trivial

theorem calls_reach {C : ℕ∞} {x y : Net Nat Addr UInt8 (Local D Host)} {r : Nat}
    {ops : List (Nat × RankOp)} (hpg : pg.rank < pg.size) (hprog : (x.node r).prog = callsOf pg ops)
    (hclosed : (x.node r).store.aux.metal.batch_cmd = none)
    (hinit : (x.node r).store.aux.metal.cache.initialized = true) (hxy : Reaches C x y) :
    (y.node r).prog.wp
      (fun _ => BatchAfter (x.node r).store.aux.metal.cache
        (∃ o ∈ ops, o.2.Leaks pg (x.node r).store.aux.metal.cache))
      (fun _ _ => False) (y.node r).store :=
  wp_reaches hxy (by rw [hprog]; exact calls_closed ops hpg hclosed hinit)

end calls

/-! ## A reduction without kernels -/

/-- Two ranks sum up one element of four bytes. -/
def smallScatter (dtype : ScalarType) (r : Nat) : RankProg byteDevice Unit :=
  callsOf ⟨r, 2⟩ [(0, ._reduce_scatter_base .SUM (userTensor dtype 1 1) (userTensor dtype 0 2))]

theorem smallScatter_valid {dtype : ScalarType} (hadm : admitted dtype = true)
    (hsize : dtype.elementSize = 4) :
    ReduceScatterBaseOk 2 4 (fun _ => userTensor dtype 1 1) fun _ => userTensor dtype 0 2 where
  input_valid := fun _ _ => ⟨⟨rfl, rfl, hadm, by simp [Tensor.numel, userTensor]⟩, 0, rfl⟩
  output_valid := fun _ _ => ⟨⟨rfl, rfl, hadm, by simp [Tensor.numel, userTensor]⟩, 1, rfl⟩
  input_nbytes := fun _ _ => by
    simp [Tensor.nbytes, Tensor.numel, Tensor.element_size, userTensor, hsize]
  output_nbytes := fun _ _ => by
    simp [Tensor.nbytes, Tensor.numel, Tensor.element_size, userTensor, hsize]
  apart := fun _ _ => .inl fun a ha ha' => by
    have h1 := (mem_span.mp ha).1
    have h2 := (mem_span.mp ha').1
    rw [h1] at h2
    simp [Tensor.addr, userTensor] at h2

/-- Both ranks come to the end of their calls. -/
theorem smallScatter_halts (dtype : ScalarType) (hadm : admitted dtype = true)
    (hsize : dtype.elementSize = 4) :
    ∃ y, Reaches ((4 : Nat) : ℕ∞) (start (List.range 2) freshState (smallScatter dtype)) y ∧
      (y.node 0).prog = .ret () := by
  let e : Exchange := ._reduce_scatter_base .SUM .f32 .add 4 (fun _ => userTensor dtype 1 1)
    fun _ => userTensor dtype 0 2
  have hd : Decided 2 4 _ freshState fun r => (e.call 2 r).prog :=
    e.decided_call (smallScatter_valid hadm hsize) le_rfl fun _ _ _ _ => rfl
  -- There is one round, and its messages have four bytes.
  have hagrees : Agrees 2 ((4 : Nat) : ℕ∞) e.rounds e.bytes fun i r => e.Goes freshState i r := by
    intro i hi r _ _
    obtain rfl : i = 0 := by simpa [e, Exchange.rounds] using hi
    exact ⟨fun _ _ _ h => absurd h (Nat.not_lt_zero _), fun _ _ _ _ _ => .inl le_rfl⟩
  have hflow := (hd.flow hagrees).context (F := fun _ q => guarded q >>= fun _ => .ret ())
    (fun _ => (Context.bind _).comp (Context.tryCatch _)) fun _ q hq s => ⟨s, .ret (), trivial, by
      cases q with
      | ret a => exact .refl
      | raise msg => exact .refl
      | act f k => exact hq.elim
      | par ts k => exact hq.elim⟩
  have hstart : Flows 2 ((4 : Nat) : ℕ∞) freshState (smallScatter dtype) :=
    hflow.silent (fun r _ => .single ⟨none, .act⟩) fun _ _ => rfl
  have hrf : ∀ r < 2, (smallScatter dtype r).RaceFree := by
    intro r hr
    apply callsOf_raceFree
    exact List.forall_mem_singleton.mpr (hd.raceFree r hr)
  obtain ⟨y, hy, hfin⟩ := hstart.halts hrf (by simp)
  refine ⟨y, hy, ?_⟩
  have hwp := @calls_reach _ ⟨0, 2⟩ _ _ _ 0 _ Nat.two_pos (by simp [start]; rfl) rfl rfl hy
  have hfin := hfin 0
  cases hprog : (y.node 0).prog with
  | ret a => rfl
  | raise msg =>
    rw [hprog] at hwp
    exact hwp.elim
  | act f k =>
    rw [hprog] at hfin
    exact hfin.elim
  | par ts k =>
    rw [hprog] at hfin
    exact hfin.elim

end Mccl
