import Mccl.Backend.Rounds

/-! # Encoding Reductions

    `batch_cmd` redirects every kernel of the process into the open batch.
    `metal_begin_batch` and `metal_end_batch` bracket the reduction of a
    reduce-scatter; an exception in between leaves the batch open.

    * `Steady`: programs that neither open nor close a batch.
    * `Tensor.Encodable`: the kernels of a reduction can be encoded.
    * `reduce_peers_wp`: otherwise the reduction raises and the batch stays
      open. -/

namespace Mccl

open ForkJoin Arrays
open Proc (ret_bind check_pos wp_bind wp_then wp_mono wp_get wp_check)

/-! ## Steady programs -/

section steady
variable {β ω : Type} {D : Device β}

/-- A batch is open afterwards if and only if one was open before. -/
structure Steady (s s' : RankStore D ω) : Prop where
  tag : s'.tag = s.tag
  cache : s'.aux.metal.cache = s.aux.metal.cache
  batch : s'.aux.metal.batch_cmd.isSome = s.aux.metal.batch_cmd.isSome

theorem Steady.refl (s : RankStore D ω) : Steady s s := ⟨rfl, rfl, rfl⟩

theorem Steady.trans {s s' s'' : RankStore D ω} (h : Steady s s') (h' : Steady s' s'') :
    Steady s s'' :=
  ⟨h'.tag.trans h.tag, h'.cache.trans h.cache, h'.batch.trans h.batch⟩

theorem steady_blind : Blind (Steady (D := D) (ω := ω)) :=
  ⟨.refl, .trans, fun _ _ => ⟨rfl, rfl, rfl⟩⟩

theorem drain_keeps : (mccl_queue_drain : Prog D ω Unit).Keeps Steady :=
  .modify fun _ => ⟨rfl, rfl, rfl⟩

theorem dispatch_steady (c : Cmd D) (s : RankStore D ω) :
    Steady s (setMetal s (s.aux.metal.dispatch c)) := by
  unfold Metal.dispatch setMetal
  split
  · rename_i cs h
    exact ⟨rfl, rfl, by simp [h]⟩
  · exact ⟨rfl, rfl, rfl⟩

theorem dispatch_keeps (c : Cmd D) : (dispatch c : Prog D ω Unit).Keeps Steady :=
  .modify (dispatch_steady c)

theorem metal_reduce_op_view_keeps (dst src : MPSBufferView) (dtype : ScalarType) (count : Nat)
    (op : RedOpType) : (metal_reduce_op_view dst src dtype count op : Prog D ω Unit).Keeps Steady := by
  refine .bind (.get steady_blind) fun s => .bind (.check _ _) fun _ => ?_
  split
  · trivial
  · exact .bind (dispatch_keeps _) fun _ => drain_keeps

theorem metal_scale_inplace_view_keeps (buf : MPSBufferView) (dtype : ScalarType) (count : Nat)
    (scale : D.Double) :
    (metal_scale_inplace_view buf dtype count scale : Prog D ω Unit).Keeps Steady := by
  refine .bind (.get steady_blind) fun s => .bind (.check _ _) fun _ => ?_
  split
  · trivial
  · exact .bind (dispatch_keeps _) fun _ => drain_keeps

/-! ### Allreduce -/

theorem byte_ptr_keeps (v : MPSBufferView) (offset : Nat) :
    (byte_ptr v offset : Prog D ω Addr).Keeps Steady := by
  unfold byte_ptr
  split <;> trivial

theorem average_keeps (args : AllreduceArgs) (op : RedOpType) (world : Nat) :
    (average args op world : Prog D ω Unit).Keeps Steady := by
  unfold average
  split
  · exact metal_scale_inplace_view_keeps _ _ _ _
  · trivial

variable (args : AllreduceArgs) (op : RedOpType) (rank world : Nat)

theorem allreduce_ring_keeps :
    (allreduce_ring args op rank world : Prog D ω Unit).Keeps Steady := by
  refine .bind (.check _ _) fun _ => .bind (.forM fun k _ => ?_) fun _ =>
    .bind (.forM fun k _ => ?_) fun _ => average_keeps _ _ _
  · exact .bind (byte_ptr_keeps _ _) fun _ => .bind (byte_ptr_keeps _ _) fun _ =>
      .bind (p := .fork _) trivial fun _ => metal_reduce_op_view_keeps _ _ _ _ _
  · exact .bind (byte_ptr_keeps _ _) fun _ => .bind (byte_ptr_keeps _ _) fun _ => trivial

theorem tree_reduce_keeps (masks : List Nat) (active : Bool) :
    (tree_reduce args op rank world masks active : Prog D ω Unit).Keeps Steady := by
  induction masks generalizing active with
  | nil => trivial
  | cons mask masks ih =>
    rw [tree_reduce]
    split
    · trivial
    · split
      · exact .bind (byte_ptr_keeps _ _) fun _ => .bind (p := .fork _) trivial fun _ => ih false
      · dsimp only
        split
        · exact .bind (byte_ptr_keeps _ _) fun _ => .bind (p := .fork _) trivial fun _ =>
            .bind (metal_reduce_op_view_keeps _ _ _ _ _) fun _ => ih true
        · exact ih true

theorem allreduce_tree_keeps :
    (allreduce_tree args op rank world : Prog D ω Unit).Keeps Steady := by
  refine .bind (tree_reduce_keeps _ _ _ _ _ _) fun _ => .bind (.forM fun mask _ => ?_) fun _ =>
    average_keeps _ _ _
  unfold tree_broadcast_step
  dsimp only
  split
  · exact .bind (byte_ptr_keeps _ _) fun _ => trivial
  · split
    · exact .bind (byte_ptr_keeps _ _) fun _ => trivial
    · trivial

theorem allreduce_butterfly_keeps :
    (allreduce_butterfly args op rank world : Prog D ω Unit).Keeps Steady :=
  .bind (.check _ _) fun _ => .bind (.check _ _) fun _ => .bind (byte_ptr_keeps _ _) fun _ =>
    .bind (byte_ptr_keeps _ _) fun _ => .bind (p := .fork _) trivial fun _ =>
    .bind (.forM fun _ _ => metal_reduce_op_view_keeps _ _ _ _ _) fun _ =>
    .bind (p := .fork _) trivial fun _ => average_keeps _ _ _

end steady

section staging
variable {D : Device UInt8} {t : Tensor} {s : RankState D}

/-! ### Checks and staging -/

/-- The tensor passes `check_single_tensor`. -/
structure Tensor.Single (t : Tensor) : Prop where
  device : (t.is_mps || t.is_cpu) = true
  contiguous : t.is_contiguous = true
  admitted : admitted t.dtype = true
  numel_pos : 0 < t.numel

/-- The tensor passes `check_mps_`. -/
structure Tensor.Plain (t : Tensor) : Prop where
  mps : t.is_mps = true
  contiguous : t.is_contiguous = true

theorem check_single_tensor_of (h : t.Single) :
    (check_single_tensor t : RankProg D Unit) = .ret () := by
  simp only [check_single_tensor, check_pos h.device, check_pos h.contiguous,
    check_pos h.admitted, check_pos h.numel_pos, ret_bind]

theorem check_single_tensor_raise (h : ¬ t.Single) :
    ∃ msg, (check_single_tensor t : RankProg D Unit) = .raise msg := by
  unfold check_single_tensor Proc.check
  by_cases hdevice : (t.is_mps || t.is_cpu) = true
  · by_cases hcontiguous : t.is_contiguous = true
    · by_cases hadmitted : admitted t.dtype = true
      · have hnumel : ¬ 0 < t.numel := fun hn => h ⟨hdevice, hcontiguous, hadmitted, hn⟩
        exact ⟨_, by simp only [hdevice, hcontiguous, hadmitted, hnumel, if_true, if_false]; rfl⟩
      · exact ⟨_, by simp only [hdevice, hcontiguous, hadmitted, if_true]; rfl⟩
    · exact ⟨_, by simp only [hdevice, hcontiguous, if_true]; rfl⟩
  · exact ⟨_, by simp only [hdevice]; rfl⟩

theorem check_mps_wp (t : Tensor) (op : String) (s : RankState D) :
    (check_mps_ t op).wp (fun _ s' => s' = s ∧ t.Plain) (fun _ s' => s' = s ∧ ¬ t.Plain) s := by
  rw [check_mps_, wp_bind, wp_check]
  refine ⟨fun hmps => ?_, fun hmps => ⟨rfl, fun h => hmps h.mps⟩⟩
  rw [wp_check]
  exact ⟨fun hcontiguous => ⟨rfl, hmps, hcontiguous⟩, fun hno => ⟨rfl, fun h => hno h.contiguous⟩⟩

theorem extract_mps_buffer_of (h : t.Single) :
    (extract_mps_buffer t : RankProg D MPSBufferView) = .ret t.view := by
  rw [extract_mps_buffer, check_single_tensor_of h]
  rfl

theorem stage_wp (t : Tensor) (s : RankState D) :
    (stage_for_send_nosync t).wp (fun sb s' => Steady s s' ∧ t.Single ∧ sb.nbytes = t.nbytes)
      (fun _ s' => s' = s ∧ ¬ t.Single) s := by
  by_cases h : t.Single
  · rw [stage_for_send_nosync, check_single_tensor_of h, ret_bind, extract_mps_buffer_of h,
      ret_bind]
    split
    · exact ⟨.refl s, h, rfl⟩
    · exact ⟨⟨rfl, rfl, rfl⟩, h, rfl⟩
  · obtain ⟨msg, hmsg⟩ := check_single_tensor_raise (D := D) h
    rw [stage_for_send_nosync, hmsg]
    exact ⟨rfl, h⟩

theorem unstage_wp (t : Tensor) (src : Addr) {n : Nat} (hn : n = t.nbytes) (s : RankState D) :
    (unstage_from_recv t src n).wp (fun _ s' => Steady s s' ∧ t.Single)
      (fun _ s' => s' = s ∧ ¬ t.Single) s := by
  by_cases h : t.Single
  · rw [unstage_from_recv, check_single_tensor_of h, ret_bind, check_pos hn, ret_bind,
      extract_mps_buffer_of h, ret_bind]
    split
    · exact ⟨⟨rfl, rfl, rfl⟩, h⟩
    · rw [wp_bind, pool_source, wp_bind, wp_get]
      split <;> exact ⟨⟨rfl, rfl, rfl⟩, h⟩
  · obtain ⟨msg, hmsg⟩ := check_single_tensor_raise (D := D) h
    rw [unstage_from_recv, hmsg]
    exact ⟨rfl, h⟩

theorem vectors_wp (l : List Nat) (n : Nat → Nat) (s : RankState D) :
    (forM l fun p => vector p (n p) : RankProg D PUnit).wp (fun _ s' => Steady s s')
      (fun _ _ => False) s :=
  Proc.wp_forM (fun _ _ _ hs => hs.trans ⟨rfl, rfl, rfl⟩) (.refl s)

/-! ### Keeping the batch -/

theorem check_mps_keeps (t : Tensor) (op : String) :
    (check_mps_ t op : RankProg D Unit).Keeps Steady :=
  .bind (.check _ _) fun _ => .check _ _

theorem check_single_tensor_keeps (t : Tensor) :
    (check_single_tensor t : RankProg D Unit).Keeps Steady :=
  .bind (.check _ _) fun _ => .bind (.check _ _) fun _ => .bind (.check _ _) fun _ => .check _ _

theorem extract_mps_buffer_keeps (t : Tensor) :
    (extract_mps_buffer t : RankProg D MPSBufferView).Keeps Steady :=
  .bind (check_single_tensor_keeps t) fun _ => trivial

theorem memcpy_keeps (dst src : Addr) (n : Nat) :
    (memcpy dst src n : RankProg D Unit).Keeps Steady :=
  .modify fun _ => ⟨rfl, rfl, rfl⟩

theorem vector_keeps (i n : Nat) : (vector i n : RankProg D Unit).Keeps Steady :=
  .modify fun _ => ⟨rfl, rfl, rfl⟩

theorem ensure_keeps (n : Nat) : (ensure n : RankProg D Addr).Keeps Steady :=
  .bind (.modify fun _ => ⟨rfl, rfl, rfl⟩) fun _ => .bind (.get steady_blind) fun _ => trivial

theorem blit_keeps (dst src : Addr) (n : Nat) : (blit dst src n : RankProg D Unit).Keeps Steady :=
  .bind drain_keeps fun _ => memcpy_keeps _ _ _

theorem stage_keeps (t : Tensor) :
    (stage_for_send_nosync t : RankProg D StagingBuffer).Keeps Steady := by
  refine .bind (check_single_tensor_keeps t) fun _ => .bind (extract_mps_buffer_keeps t) fun v => ?_
  split
  · trivial
  · exact .bind (ensure_keeps _) fun _ => .bind (blit_keeps _ _ _) fun _ => trivial

theorem unstage_keeps (t : Tensor) (src : Addr) (n : Nat) :
    (unstage_from_recv t src n : RankProg D Unit).Keeps Steady := by
  refine .bind (check_single_tensor_keeps t) fun _ => .bind (.check _ _) fun _ =>
    .bind (extract_mps_buffer_keeps t) fun v => ?_
  split
  · exact memcpy_keeps _ _ _
  · refine .bind (.bind (.get steady_blind) fun s => ?_) fun _ => blit_keeps _ _ _
    split
    · trivial
    · exact .bind (ensure_keeps _) fun _ => .bind (memcpy_keeps _ _ _) fun _ => trivial

end staging

/-! ## Encoding a reduction -/

section encoding
variable {D : Device UInt8} {t : Tensor} {op : RedOpType} {s : RankState D}

/-- The kernel of `op` can be encoded for `t`. -/
structure Tensor.Dispatches (t : Tensor) (c : KernelCache) (op : RedOpType) : Prop where
  numel_le : t.numel ≤ UINT32_MAX
  binary : (select_op_pipeline c t.dtype op).isSome = true

/-- All kernels of a reduction with `op` can be encoded for `t`. -/
structure Tensor.Encodable (t : Tensor) (c : KernelCache) (op : RedOpType) : Prop
    extends t.Dispatches c op where
  initialized : c.initialized = true
  scale : op = .AVG → (select_scale_pipeline c t.dtype).isSome = true

theorem safe_numel_raise (h : ¬ t.numel ≤ UINT32_MAX) :
    ∃ msg, (safe_numel t : RankProg D Nat) = .raise msg :=
  ⟨_, by simp only [safe_numel, Proc.check, h, if_false]; rfl⟩

section operands
variable {src : Tensor} (h : t.Single) (hsrc : src.Single) (hsizes : t.sizes = src.sizes)
  (hdtype : t.dtype = src.dtype) (hinit : s.aux.metal.cache.initialized = true)
include h hsrc hsizes hdtype hinit

theorem metal_elementwise_wp {name : String} {k : BinaryOp} :
    (metal_elementwise k name t src).wp
      (fun _ s' => Steady s s' ∧ t.numel ≤ UINT32_MAX ∧
        (select_elementwise_pipeline s.aux.metal.cache k t.dtype).isSome = true)
      (fun _ s' => Steady s s' ∧ ¬ (t.numel ≤ UINT32_MAX ∧
        (select_elementwise_pipeline s.aux.metal.cache k t.dtype).isSome = true)) s := by
  rw [metal_elementwise, wp_bind, wp_get, check_pos hinit, ret_bind,
    check_same_shape_dtype, check_pos hsizes, ret_bind, check_pos hdtype,
    ret_bind]
  rcases hpso : select_elementwise_pipeline s.aux.metal.cache k t.dtype with _ | pso
  · exact ⟨.refl s, by simp⟩
  · dsimp only
    rw [dispatch_binary_op, extract_mps_buffer_of h, ret_bind, extract_mps_buffer_of hsrc,
      ret_bind]
    by_cases hn : t.numel ≤ UINT32_MAX
    · rw [safe_numel_eq hn]
      exact ⟨dispatch_steady _ s, hn, rfl⟩
    · obtain ⟨msg, hmsg⟩ := safe_numel_raise (D := D) hn
      rw [hmsg]
      exact ⟨.refl s, fun hc => hn hc.1⟩

theorem metal_accumulate_chunk_wp :
    (metal_accumulate_chunk t src).wp
      (fun _ s' => Steady s s' ∧ t.numel ≤ UINT32_MAX ∧
        (select_accumulate_pipeline s.aux.metal.cache t.dtype).isSome = true)
      (fun _ s' => Steady s s' ∧ ¬ (t.numel ≤ UINT32_MAX ∧
        (select_accumulate_pipeline s.aux.metal.cache t.dtype).isSome = true)) s := by
  rw [metal_accumulate_chunk, wp_bind, wp_get, check_pos hinit, ret_bind,
    check_same_shape_dtype, check_pos hsizes, ret_bind, check_pos hdtype,
    ret_bind, extract_mps_buffer_of h, ret_bind, extract_mps_buffer_of hsrc,
    ret_bind]
  by_cases hn : t.numel ≤ UINT32_MAX
  · rw [safe_numel_eq hn, ret_bind]
    rcases hpso : select_accumulate_pipeline s.aux.metal.cache t.dtype with _ | pso
    · exact ⟨.refl s, by simp⟩
    · exact ⟨dispatch_steady _ s, hn, rfl⟩
  · obtain ⟨msg, hmsg⟩ := safe_numel_raise (D := D) hn
    rw [hmsg]
    exact ⟨.refl s, fun hc => hn hc.1⟩

/-- A kernel is encoded, or there is none and the call raises. -/
theorem metal_reduce_op_wp (op : RedOpType) :
    (metal_reduce_op t src op).wp
      (fun _ s' => Steady s s' ∧ t.Dispatches s.aux.metal.cache op)
      (fun _ s' => Steady s s' ∧ ¬ t.Dispatches s.aux.metal.cache op) s := by
  have hno : select_op_pipeline s.aux.metal.cache t.dtype op = none →
      ¬ t.Dispatches s.aux.metal.cache op := fun hnone hd => by simpa [hnone] using hd.binary
  cases op with
  | SUM | AVG =>
    refine wp_mono (metal_accumulate_chunk_wp h hsrc hsizes hdtype hinit) ?_ ?_
    · exact fun _ s' hs' => ⟨hs'.1, hs'.2.1, hs'.2.2⟩
    · exact fun _ s' hs' => ⟨hs'.1, fun hd => hs'.2 ⟨hd.numel_le, hd.binary⟩⟩
  | MIN | MAX | PRODUCT =>
    refine wp_mono (metal_elementwise_wp h hsrc hsizes hdtype hinit) ?_ ?_
    · exact fun _ s' hs' => ⟨hs'.1, hs'.2.1, hs'.2.2⟩
    · exact fun _ s' hs' => ⟨hs'.1, fun hd => hs'.2 ⟨hd.numel_le, hd.binary⟩⟩
  | _ => exact ⟨.refl s, hno rfl⟩

end operands

theorem scale_average_wp (w : Nat) (op : RedOpType) (h : t.Single)
    (hinit : s.aux.metal.cache.initialized = true) (hn : t.numel ≤ UINT32_MAX) :
    (scale_average w op t).wp
      (fun _ s' => Steady s s' ∧
        (op = .AVG → (select_scale_pipeline s.aux.metal.cache t.dtype).isSome = true))
      (fun _ s' => Steady s s' ∧
        ¬ (op = .AVG → (select_scale_pipeline s.aux.metal.cache t.dtype).isSome = true)) s := by
  unfold scale_average
  by_cases hop : op = .AVG
  · rw [if_pos hop, metal_scale_inplace, wp_bind, wp_get, check_pos hinit,
      ret_bind, extract_mps_buffer_of h, ret_bind, safe_numel_eq hn, ret_bind]
    rcases hpso : select_scale_pipeline s.aux.metal.cache t.dtype with _ | f
    · exact ⟨.refl s, by simp [hop]⟩
    · exact ⟨dispatch_steady _ s, fun _ => rfl⟩
  · rw [if_neg hop]
    exact ⟨.refl s, fun h => absurd h hop⟩

theorem reduce_peer_wp (op : RedOpType) {n : Nat} (i : Nat) (src : Addr) (h : t.Single) (hn : n = t.nbytes)
    (hinit : s.aux.metal.cache.initialized = true) :
    (do unstage_from_recv (empty_like t i) src n
        metal_reduce_op t (empty_like t i) op : RankProg D Unit).wp
      (fun _ s' => Steady s s' ∧ t.Dispatches s.aux.metal.cache op)
      (fun _ s' => Steady s s' ∧ ¬ t.Dispatches s.aux.metal.cache op) s := by
  have htmp : (empty_like t i).Single := ⟨h.device, rfl, h.admitted, h.numel_pos⟩
  refine wp_then (unstage_wp (empty_like t i) src hn s) (fun _ s₁ h₁ => ?_)
    fun _ _ hno => absurd htmp hno.2
  have hred := metal_reduce_op_wp (s := s₁) h htmp rfl rfl (by rw [h₁.1.cache, hinit]) op
  rw [h₁.1.cache] at hred
  exact wp_mono hred (fun _ s₂ hs₂ => ⟨h₁.1.trans hs₂.1, hs₂.2⟩)
    fun _ s₂ hs₂ => ⟨h₁.1.trans hs₂.1, hs₂.2⟩

/-- What the batch looks like after an attempt to reduce: it is closed if
    everything could be encoded, and otherwise left open. -/
theorem reduce_peers_wp (op : RedOpType) {r w n : Nat} (base : Nat) (h : t.Single) (hn : n = t.nbytes)
    (hpeers : peers r w ≠ []) (hclosed : s.aux.metal.batch_cmd = none) :
    (reduce_peers r w op t (fun p => empty_like t (base + p)) n).wp
      (fun _ s' => s'.tag = s.tag ∧ s'.aux.metal.cache = s.aux.metal.cache ∧
        s'.aux.metal.batch_cmd = none ∧ t.Encodable s.aux.metal.cache op)
      (fun _ s' => s'.tag = s.tag ∧ s'.aux.metal.cache = s.aux.metal.cache ∧
        s'.aux.metal.batch_cmd.isSome = s.aux.metal.cache.initialized ∧
        ¬ t.Encodable s.aux.metal.cache op) s := by
  rw [reduce_peers, wp_bind, metal_begin_batch, wp_bind, wp_get, wp_bind,
    wp_check]
  refine ⟨fun hinit => ?_, fun hinit => ⟨rfl, rfl, ?_, fun he => hinit he.initialized⟩⟩
  swap
  · simp [hclosed, hinit]
  rw [check_pos (by simp [hclosed]), ret_bind, Proc.wp_modify]
  -- Inside the batch.
  have hopen : ∀ {s'}, Steady (begun s) s' → s'.tag = s.tag ∧
      s'.aux.metal.cache = s.aux.metal.cache ∧
      s'.aux.metal.batch_cmd.isSome = s.aux.metal.cache.initialized :=
    fun hs' => ⟨hs'.tag, hs'.cache, hs'.batch.trans hinit.symm⟩
  by_cases hd : t.Dispatches s.aux.metal.cache op
  · refine wp_then (Proc.wp_forM (I := Steady (begun s)) (E := fun _ _ => False)
      (fun p _ s' hs' => ?_) (.refl _)) (fun _ s₁ hs₁ => ?_) fun _ _ h => h.elim
    · have hcache : s'.aux.metal.cache = s.aux.metal.cache := hs'.cache
      have hpeer := reduce_peer_wp (s := s') op (base + p) (heap p) h hn (by rw [hcache, hinit])
      rw [hcache] at hpeer
      exact wp_mono hpeer (fun _ _ h => hs'.trans h.1) fun _ _ h => h.2 hd
    · have hscale := scale_average_wp (D := D) (s := s₁) w op h
        (by rw [hs₁.cache]; exact hinit) hd.numel_le
      rw [hs₁.cache] at hscale
      refine wp_then hscale (fun _ s₂ hs₂ => ?_) fun _ s₂ hs₂ => ?_
      · have hs₂' := hs₁.trans hs₂.1
        obtain ⟨cs, hcs⟩ := Option.isSome_iff_exists.mp hs₂'.batch
        refine ⟨?_, ?_, ?_, ⟨hd, hinit, hs₂.2⟩⟩
        · simp only [ended, hcs, setMetal]
          exact hs₂'.tag
        · simp only [ended, hcs, setMetal]
          exact hs₂'.cache
        · simp only [ended, hcs, setMetal]
      · obtain ⟨h1, h2, h3⟩ := hopen (hs₁.trans hs₂.1)
        exact ⟨h1, h2, h3, fun he => hs₂.2 he.scale⟩
  · -- The first kernel cannot be encoded.
    obtain ⟨p, ps, hps⟩ := List.exists_cons_of_ne_nil hpeers
    rw [hps, List.forM_cons, wp_bind]
    refine wp_then (reduce_peer_wp (s := begun s) op (base + p) (heap p) h hn hinit)
      (fun _ s' hs' => absurd hs'.2 hd) fun _ s' hs' => ?_
    obtain ⟨h1, h2, h3⟩ := hopen hs'.1
    exact ⟨h1, h2, h3, fun he => hd he.toDispatches⟩

theorem reduce_peers_open {r w n : Nat} {tmp : Nat → Tensor}
    (hopen : s.aux.metal.batch_cmd.isSome = true) :
    (reduce_peers r w op t tmp n).wp (fun _ _ => False) (fun _ s' => s' = s) s := by
  have hnot : ¬ s.aux.metal.batch_cmd.isNone = true := by
    obtain ⟨cs, hcs⟩ := Option.isSome_iff_exists.mp hopen
    simp [hcs]
  rw [reduce_peers, wp_bind, metal_begin_batch, wp_bind, wp_get, wp_bind,
    wp_check]
  refine ⟨fun _ => ?_, fun _ => rfl⟩
  rw [wp_bind, wp_check]
  exact ⟨fun h => absurd h hnot, fun _ => rfl⟩

end encoding

end Mccl
