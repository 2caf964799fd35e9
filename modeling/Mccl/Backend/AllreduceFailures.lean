import Mccl.Backend.ElementTypes
import Mccl.Backend.Interleaving
import Mccl.Framework.Failures

/-! # When an Allreduce Raises

    The ways in which the algorithms of an allreduce can end in an exception,
    and that they do end in it: no rank waits for a message that never comes
    before some rank has raised.

    * `AllreduceAlgo.run_private`: storage that the CPU cannot access is refused
      before the first message.
    * `AllreduceGroup.raising_of_no_kernel`: without a kernel, rank 0 raises
      after the first round of messages.
    * `AllreduceGroup.raising_of_no_scale`: an average also needs the kernel that
      divides the sum, which it calls last. -/

namespace Mccl

open ForkJoin Arrays

/-! ## Private storage -/

section private_storage
variable {β ω : Type} {D : Device β} {args : AllreduceArgs} (op : RedOpType) {r w : Nat}

theorem byte_ptr_private {v : MPSBufferView} (h : v.cpu_accessible = false) (offset : Nat) :
    (byte_ptr v offset : Prog D ω Addr) =
      .raise "AllreduceAlgos requires shared (cpu-accessible) MTLBuffer storage" := by
  simp [byte_ptr, MPSBufferView.cpu_ptr, h]

theorem allreduce_ring_private (ht : args.t_view.cpu_accessible = false) (hw : 2 ≤ w) :
    ∃ msg, (allreduce_ring args op r w : Prog D ω Unit) = .raise msg := by
  unfold allreduce_ring Proc.check
  split
  · -- There is a first step, and it starts with the address of a chunk.
    obtain ⟨n, hn⟩ : ∃ n, w - 1 = n + 1 := ⟨w - 2, by omega⟩
    rw [hn, List.range_succ_eq_map, List.forM_cons, ring_reduce_step, byte_ptr_private ht]
    exact ⟨_, rfl⟩
  · exact ⟨_, rfl⟩

theorem allreduce_butterfly_private (ht : args.t_view.cpu_accessible = false) :
    ∃ msg, (allreduce_butterfly args op r w : Prog D ω Unit) = .raise msg := by
  unfold allreduce_butterfly Proc.check
  split
  · dsimp only
    split
    · rw [byte_ptr_private ht]
      exact ⟨_, rfl⟩
    · exact ⟨_, rfl⟩
  · exact ⟨_, rfl⟩

/-- A rank that is still active has a partner for one of the masks that are
    left. -/
theorem tree_reduce_private (ht : args.t_view.cpu_accessible = false)
    (hrecv : args.recv_view.cpu_accessible = false) (hr : r < w) {j n : Nat}
    (hn : j + n = Nat.clog 2 w) (hmod : r % 2 ^ j = 0) (hlast : n = 0 → r ≠ 0) :
    ∃ msg, (tree_reduce args op r w ((List.range' j n).map (2 ^ ·)) true : Prog D ω Unit) =
      .raise msg := by
  induction n generalizing j with
  | zero =>
    -- A multiple of a power of two that is not below `w` is 0.
    have hle : w ≤ 2 ^ j := by
      rw [show j = Nat.clog 2 w by omega]
      exact Nat.le_pow_clog one_lt_two _
    rw [Nat.mod_eq_of_lt (by omega)] at hmod
    exact absurd hmod (hlast rfl)
  | succ n ih =>
    rw [List.range'_succ, List.map_cons, tree_reduce]
    simp only [Bool.not_true, Bool.false_eq_true, if_false]
    by_cases hbit : r &&& 2 ^ j ≠ 0
    · rw [if_pos hbit, byte_ptr_private ht]
      exact ⟨_, rfl⟩
    · rw [if_neg hbit]
      by_cases hlt : r + 2 ^ j < w
      · rw [if_pos hlt, byte_ptr_private hrecv]
        exact ⟨_, rfl⟩
      · rw [if_neg hlt]
        have hnext : r % 2 ^ (j + 1) = 0 := by
          rw [pow_succ]
          apply (mod_double hmod).resolve_right
          intro h
          exact hbit ((and_two_pow_ne_zero_iff hmod).mpr h)
        apply ih (by omega) hnext
        -- Rank 0 has a partner for every mask.
        rintro - rfl
        have hj : j < Nat.clog 2 w := by omega
        exact hlt (by rw [Nat.zero_add]; exact (Nat.lt_clog_iff_pow_lt one_lt_two).mp hj)

theorem allreduce_tree_private (ht : args.t_view.cpu_accessible = false)
    (hrecv : args.recv_view.cpu_accessible = false) (hw : 2 ≤ w) (hr : r < w) :
    ∃ msg, (allreduce_tree args op r w : Prog D ω Unit) = .raise msg := by
  have hmasks := masksUp_eq (w := w) w 0 (by have := clog_le_self w; omega)
  rw [pow_zero, Nat.sub_zero] at hmasks
  obtain ⟨msg, hmsg⟩ := tree_reduce_private (D := D) (ω := ω) op ht hrecv hr
    (j := 0) (n := Nat.clog 2 w) (by omega) (by rw [pow_zero, Nat.mod_one])
    (by have := Nat.clog_pos one_lt_two hw; omega)
  rw [allreduce_tree, hmasks, hmsg]
  exact ⟨msg, rfl⟩

/-- Every algorithm refuses private storage before it communicates. -/
theorem AllreduceAlgo.run_private (alg : AllreduceAlgo) (args : AllreduceArgs)
    (ht : args.t_view.cpu_accessible = false)
    (hrecv : args.recv_view.cpu_accessible = false) (hw : 2 ≤ w) (hr : r < w) :
    ∃ msg, (alg.run args op r w : Prog D ω Unit) = .raise msg := by
  cases alg with
  | ring => exact allreduce_ring_private op ht hw
  | tree => exact allreduce_tree_private op ht hrecv hw hr
  | butterfly => exact allreduce_butterfly_private op ht

end private_storage

/-! ## Missing kernels -/

section kernels
variable {D : Device UInt8} {s : RankState D} {dtype : ScalarType} {op : RedOpType}

/-- The kernel of the reduction, if it is there. -/
def KernelCache.Reduces (c : KernelCache) (dtype : ScalarType) (op : RedOpType) : Prop :=
  c.initialized = true ∧ (select_op_pipeline c dtype op).isSome = true

theorem metal_reduce_op_view_fails (h : ¬s.aux.metal.cache.Reduces dtype op)
    (dst src : MPSBufferView) (count : Nat) :
    (metal_reduce_op_view dst src dtype count op : RankProg D Unit).Fails s := by
  unfold metal_reduce_op_view
  apply Proc.fails_get_bind
  by_cases hinit : s.aux.metal.cache.initialized = true
  · rw [Proc.check_pos hinit, Proc.ret_bind]
    have hnone : select_op_pipeline s.aux.metal.cache dtype op = none := by
      rw [← Option.not_isSome_iff_eq_none]
      exact fun hsome => h ⟨hinit, hsome⟩
    rw [hnone]
    trivial
  · exact (Proc.fails_check hinit).bind _

theorem metal_scale_inplace_view_fails (h : select_scale_pipeline s.aux.metal.cache dtype = none)
    (buf : MPSBufferView) (count : Nat) (scale : D.Double) :
    (metal_scale_inplace_view buf dtype count scale : RankProg D Unit).Fails s := by
  unfold metal_scale_inplace_view
  apply Proc.fails_get_bind
  by_cases hinit : s.aux.metal.cache.initialized = true
  · rw [Proc.check_pos hinit, Proc.ret_bind, h]
    trivial
  · exact (Proc.fails_check hinit).bind _

/-- A sum and an average run the same kernels, until the sum is divided. -/
theorem AllreduceAlgo.run_avg (alg : AllreduceAlgo) (args : AllreduceArgs) (r w : Nat) :
    (alg.run args .AVG r w : RankProg D Unit) =
      alg.run args .SUM r w >>= fun _ => average args .AVG w := by
  have hsum : (average args .SUM w : RankProg D Unit) = .ret () := by simp [average]
  cases alg with
  | ring =>
    show allreduce_ring args .AVG r w = allreduce_ring args .SUM r w >>= _
    simp only [allreduce_ring, Proc.bind_assoc, hsum, Proc.ret_bind]
    rfl
  | tree =>
    have hreduce : ∀ (masks : List Nat) (active : Bool),
        (tree_reduce args .AVG r w masks active : RankProg D Unit) =
          tree_reduce args .SUM r w masks active := by
      intro masks
      induction masks with
      | nil => exact fun _ => rfl
      | cons mask masks ih =>
        intro active
        simp only [tree_reduce, ih]
        rfl
    show allreduce_tree args .AVG r w = allreduce_tree args .SUM r w >>= _
    simp only [allreduce_tree, Proc.bind_assoc, hsum, Proc.ret_bind, hreduce]
  | butterfly =>
    show allreduce_butterfly args .AVG r w = allreduce_butterfly args .SUM r w >>= _
    simp only [allreduce_butterfly, Proc.bind_assoc, hsum, Proc.ret_bind]
    rfl

end kernels

namespace AllreduceGroup

variable {D : Device UInt8} {G : AllreduceGroup} {cap : ℕ∞} {st : Nat → RankState D}

/-- The programs do not race, whatever the devices can do. -/
theorem run_raceFree (alg : AllreduceAlgo) (hw : 2 ≤ G.world) (hadm : alg.Admits G) {r : Nat}
    (hr : r < G.world) : (alg.run (G.args r) G.op r G.world : RankProg D Unit).RaceFree := by
  obtain ⟨y, htriple⟩ := allreduce_triple (D := D) (f := .f32) (k := .add) (ω := Host) alg
    (show 0 < 1 from one_pos) hw hadm fun _ _ => elem (D.codec .f32) (fun _ => 0) ((.mtl 0, 0) : Addr) 0
  exact htriple.raceFree r (G.mem_ranks.mpr hr)

/-- After messages, the devices are as they were. -/
def SameDevices (st st' : Nat → RankState D) : Prop := ∀ r, (st' r).aux = (st r).aux

/-- One round of messages, and the kernel that rank 0 calls next is missing. -/
theorem raising_of_round (alg : AllreduceAlgo) (hw : 2 ≤ G.world) (hadm : alg.Admits G)
    {p q : Nat → RankProg D Unit}
    (heq : ∀ r < G.world, alg.run (G.args r) G.op r G.world = p r >>= fun _ => q r)
    (hrf : ∀ r, (p r >>= fun _ => q r).RaceFree → (q r).RaceFree)
    (hround : Triple cap G.ranks (· = st) p (SameDevices st))
    (hfails : ∀ s : RankState D, s.aux = (st 0).aux → (q 0).Fails s) :
    Raising cap G.ranks (· = st) (fun r => alg.run (G.args r) G.op r G.world) 0 := by
  refine (Raising.after hround (.of_fails (G.mem_ranks.mpr (by omega)) (fun r hr => hrf r ?_)
    fun st' hst' => hfails (st' 0) (hst' 0))).congr fun r hr => heq r (G.mem_ranks.mp hr)
  rw [← heq r (G.mem_ranks.mp hr)]
  exact run_raceFree alg hw hadm (G.mem_ranks.mp hr)

section no_kernel
variable (hcap : 0 < cap) (hw : 2 ≤ G.world)
  (htag : ∀ r < G.world, ∀ q < G.world, (st r).tag = (st q).tag)
  (hno : ¬(st 0).aux.metal.cache.Reduces G.dtype G.op)

include hcap hw htag hno

theorem ring_raising (hn : G.world ≤ G.numel) :
    Raising cap G.ranks (· = st) (fun r => allreduce_ring (G.args r) G.op r G.world) 0 := by
  obtain ⟨n, hsucc⟩ : ∃ n, G.world - 1 = n + 1 := ⟨G.world - 2, by omega⟩
  let threads (r : Nat) : List (Thread Nat Addr) :=
    [[.send (ringNext G.world r) (G.chunkSpan (G.tensorAt r) ((r + G.world - 0) % G.world))],
      [.recv (ringPrev G.world r)
        (span (G.scratchAt r) (G.chunk ((r + G.world - 0 - 1) % G.world)).byte_len)]]
  let rest (r : Nat) : RankProg D Unit := do
    metal_reduce_op_view
      (view_at (G.args r).t_view (G.chunk ((r + G.world - 0 - 1) % G.world)).byte_off)
      (G.args r).recv_view G.dtype (G.chunk ((r + G.world - 0 - 1) % G.world)).elem_count G.op
    forM ((List.range n).map Nat.succ) (ring_reduce_step (G.args r) G.op r G.world)
    forM (List.range (G.world - 1)) (ring_gather_step (G.args r) r G.world)
    average (G.args r) G.op G.world
  have heq : ∀ r < G.world, (allreduce_ring (G.args r) G.op r G.world : RankProg D Unit) =
      .fork (threads r) >>= fun _ => rest r := by
    intro r hr
    simp only [allreduce_ring, G.numel_eq r hr, Proc.check_pos hn, Proc.ret_bind]
    rw [hsucc, List.range_succ_eq_map, List.forM_cons, G.ring_reduce_step_eq hr]
    simp only [Proc.bind_assoc, rest, hsucc, List.range_succ_eq_map]
    rfl
  have hround : Triple cap G.ranks (· = st) (fun r => .fork (threads r)) (SameDevices st) := by
    apply ring_round hcap hw
    · intro r hr
      rw [ring_reduce_idx hr (by omega), chunkSpan, length_span, length_span]
    · exact fun r _ => nodup_span _ _
    · exact fun r _ => disjoint_span_of_ne _ _ (G.scratch_ne r).symm
    · rintro _ rfl
      exact htag
    · rintro _ st' rfl haux - - -
      exact haux
  refine raising_of_round .ring hw hn heq (fun _ hall => hall.2) hround fun s hs => ?_
  exact (metal_reduce_op_view_fails (hs ▸ hno) _ _ _).bind _

theorem tree_raising :
    Raising cap G.ranks (· = st) (fun r => allreduce_tree (G.args r) G.op r G.world) 0 := by
  have hclog : 0 < Nat.clog 2 G.world := Nat.clog_pos one_lt_two hw
  obtain ⟨n, hsucc⟩ : ∃ n, Nat.clog 2 G.world = n + 1 := ⟨Nat.clog 2 G.world - 1, by omega⟩
  let rest (r : Nat) : RankProg D Unit := do
    G.tree_reduce_kernel (2 ^ 0) r
    tree_reduce (G.args r) G.op r G.world ((List.range' 1 n).map (2 ^ ·)) (decide (r % 2 ^ 1 = 0))
    forM (masksDown G.world (topMask G.world G.world 1)) (tree_broadcast_step (G.args r) r G.world)
    average (G.args r) G.op G.world
  have heq : ∀ r < G.world, (allreduce_tree (G.args r) G.op r G.world : RankProg D Unit) =
      G.tree_reduce_message (2 ^ 0) r >>= fun _ => rest r := by
    intro r hr
    have hmasks := masksUp_eq (w := G.world) G.world 0 (by have := clog_le_self G.world; omega)
    have hcons := G.tree_reduce_cons (D := D) (ω := Host) hr 0 ((List.range' 1 n).map (2 ^ ·))
    have hactive : decide (r % 2 ^ 0 = 0) = true := by rw [pow_zero, Nat.mod_one]; rfl
    rw [hactive] at hcons
    rw [pow_zero, Nat.sub_zero, hsucc, List.range'_succ, List.map_cons] at hmasks
    rw [allreduce_tree, hmasks, hcons]
    simp only [Proc.bind_assoc]
    rfl
  have hround : Triple cap G.ranks (· = st) (G.tree_reduce_message (2 ^ 0)) (SameDevices st) := by
    apply Triple.pairs hcap List.nodup_range (G.treePairing 0).symm
    · intro r _ _
      simp [wholeSpan]
    · exact fun r _ _ => nodup_span _ _
    · rintro _ rfl r hr h
      exact htag _ h.2 r (G.mem_ranks.mp hr)
    · rintro _ st' rfl haux - - -
      exact haux
  have hrf : ∀ r, (G.tree_reduce_message (2 ^ 0) r >>= fun _ => rest r).RaceFree → (rest r).RaceFree := by
    intro r hall
    unfold tree_reduce_message at hall
    split at hall
    · exact hall.2
    · split at hall
      · exact hall.2
      · exact hall
  refine raising_of_round .tree hw trivial heq hrf hround fun s hs => ?_
  -- Rank 1 is the partner of rank 0.
  have hpart : 0 % (2 ^ 0 * 2) = 0 ∧ 0 + 2 ^ 0 < G.world := ⟨rfl, by omega⟩
  apply Proc.Fails.bind
  rw [tree_reduce_kernel, if_pos hpart]
  exact metal_reduce_op_view_fails (hs ▸ hno) _ _ _

theorem butterfly_raising (hn : G.world ≤ G.numel) (hfit : G.ScratchFits) :
    Raising cap G.ranks (· = st) (fun r => allreduce_butterfly (G.args r) G.op r G.world) 0 := by
  obtain ⟨n, hsucc⟩ : ∃ n, G.world - 1 = n + 1 := ⟨G.world - 2, by omega⟩
  let threads (r : Nat) : List (Thread Nat Addr) :=
    Triple.completeThreads G.ranks (G.chunkSpan (G.tensorAt r))
      (fun p => G.slotSpan r (slotOf r p)) r
  let rest (r : Nat) : RankProg D Unit := do
    forM (List.range (G.world - 1)) (butterfly_reduce_slot (G.args r) G.op r G.world)
    .fork (Triple.completeThreads G.ranks (fun _ => G.chunkSpan (G.tensorAt r) r)
      (G.chunkSpan (G.tensorAt r)) r)
    average (G.args r) G.op G.world
  have heq : ∀ r < G.world, (allreduce_butterfly (G.args r) G.op r G.world : RankProg D Unit) =
      .fork (threads r) >>= fun _ => rest r :=
    fun r hr => G.allreduce_butterfly_eq hr hn hfit
  have hround : Triple cap G.ranks (· = st) (fun r => .fork (threads r)) (SameDevices st) := by
    apply Triple.complete (fun r => G.chunkSpan (G.tensorAt r))
      (fun r p => G.slotSpan r (slotOf r p)) hcap List.nodup_range
    · intro r _ p _ _
      simp [chunkSpan, slotSpan]
    · exact fun r _ p _ _ => nodup_span _ _
    · exact fun r _ p _ _ q _ _ => disjoint_span_of_ne _ _ (G.scratch_ne r).symm
    · exact fun r _ p _ hp q _ hq hpq => G.disjoint_slotSpan r (slotOf_ne hp hq hpq)
    · rintro _ rfl r hr p hp
      exact htag r (G.mem_ranks.mp hr) p (G.mem_ranks.mp hp)
    · rintro _ st' rfl haux - - -
      exact haux
  refine raising_of_round .butterfly hw ⟨hn, hfit⟩ heq (fun _ hall => hall.2) hround fun s hs => ?_
  apply Proc.Fails.bind
  rw [hsucc, List.range_succ_eq_map, List.forM_cons]
  apply Proc.Fails.bind
  unfold butterfly_reduce_slot
  rw [G.dtype_eq 0 (by omega)]
  exact metal_reduce_op_view_fails (hs ▸ hno) _ _ _

theorem raising_of_no_kernel (alg : AllreduceAlgo) (hadm : alg.Admits G) :
    Raising cap G.ranks (· = st) (fun r => alg.run (G.args r) G.op r G.world) 0 := by
  cases alg with
  | ring => exact ring_raising hcap hw htag hno hadm
  | tree => exact tree_raising hcap hw htag hno
  | butterfly => exact butterfly_raising hcap hw htag hno hadm.1 hadm.2

end no_kernel

/-- The group that only sums up. -/
def summing (G : AllreduceGroup) : AllreduceGroup := { G with op := .SUM }

/-- Without the kernel that divides the sum, rank 0 raises at the end. -/
theorem raising_of_no_scale (alg : AllreduceAlgo) (hadm : alg.Admits G) (hcap : 0 < cap)
    (hw : 2 ≤ G.world) (havg : G.op = .AVG) {f : Format} {k : BinaryOp}
    (hready : G.summing.Ready f k st)
    (hno : select_scale_pipeline (st 0).aux.metal.cache G.dtype = none) :
    Raising cap G.ranks (· = st) (fun r => alg.run (G.args r) G.op r G.world) 0 := by
  have hadm' : alg.Admits G.summing := by
    cases alg <;> exact hadm
  obtain ⟨y, htriple⟩ := allreduce_triple (k := k) (ω := Host) alg hcap (G := G.summing) hw hadm'
    (G.summing.tensor f st)
  have hsum : Triple cap G.ranks (· = st) (fun r => alg.run (G.args r) .SUM r G.world) fun _ => True := by
    apply htriple.conseq
    · rintro _ rfl
      exact ⟨hready, fun _ _ _ _ => rfl⟩
    · exact fun _ _ => trivial
  have hkeeps := hsum.keeps steady_blind fun r _ => AllreduceAlgo.run_keeps _ _ _ _ _
  have haverage : Raising cap G.ranks (fun st' => True ∧ ∀ r ∈ G.ranks, Steady (st r) (st' r))
      (fun r => average (G.args r) .AVG G.world) 0 := by
    have hzero : 0 < G.world := by omega
    apply Raising.of_fails (G.mem_ranks.mpr hzero) fun r _ => (average_straight _ _ _).raceFree
    intro st' hst'
    rw [average, if_pos rfl, G.dtype_eq 0 hzero]
    apply metal_scale_inplace_view_fails
    rw [(hst'.2 0 (G.mem_ranks.mpr hzero)).cache]
    exact hno
  apply (Raising.after hkeeps haverage).congr fun r _ => ?_
  rw [havg, AllreduceAlgo.run_avg]

end AllreduceGroup

end Mccl
