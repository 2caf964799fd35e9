import Mccl.Backend.AllreduceFailures
import Mccl.Backend.AllreduceFrame

/-! # The Number of Elements of an Allreduce

    `ProcessGroupMCCL::allreduce` chooses the algorithm and the size of the
    scratch by `numel()`, which has 64 bits, but the algorithm gets the number
    of elements in 32 bits.

    * `planOf_numel_iff`: the algorithm gets the right number if and only if the
      tensor has fewer than `2 ^ 32` elements.
    * `ReducedAt`: an index holds the reduction over all ranks, on all ranks.
    * **Main result** (`allreduce_skips_nothing`): below that number an
      allreduce raises on some rank, or reduces every index.
    * `allreduce_leaves_rest`: the elements from `n % 2 ^ 32` on are not touched,
      so from `2 ^ 32` elements on they are skipped without an error
      (`allreduce_skips_third`). -/

namespace Mccl

open ForkJoin Arrays Reduction

variable {D : Device UInt8} {cap : ℕ∞} {w : Nat}

/-! ## What the algorithm gets -/

/-- The type of the elements that are reduced. -/
def wireType (env : AllreduceEnv) (dtype : ScalarType) : ScalarType :=
  if env.wire_bf16 ∧ dtype = .Float then .BFloat16 else dtype

theorem wireOf_wireType (env : AllreduceEnv) (t : Tensor) (i : Nat) :
    (wireOf env t i).dtype = wireType env t.dtype := by
  unfold wireOf wireType
  split <;> rfl

variable {dtype : ScalarType} {op : RedOpType} {c : KernelCache} {f : Format}

theorem TypedPipeline.wire (h : TypedPipeline dtype op)
    (env : AllreduceEnv) : TypedPipeline (wireType env dtype) op := by
  unfold wireType
  split
  · exact .inl rfl
  · exact h

theorem planOf_numel (env : AllreduceEnv) (w : Nat) (t : Tensor) (i : Nat) :
    (planOf env w t i).args.numel = t.numel % 2 ^ 32 := by
  show (wireOf env t i).numel % 2 ^ 32 = _
  rw [wireOf_numel]

/-- The count is that of the tensor as long as it fits into 32 bits. -/
theorem planOf_numel_iff (env : AllreduceEnv) (w : Nat) (t : Tensor) (i : Nat) :
    (planOf env w t i).args.numel = t.numel ↔ t.numel < 2 ^ 32 := by
  rw [planOf_numel]
  exact Nat.mod_eq_iff_lt (by decide)

/-- Tensors of the user, one on every rank, of the same type and with `n`
    elements each. -/
structure Matching (w : Nat) (t : Nat → Tensor) (dtype : ScalarType) (n : Nat) : Prop where
  user : ∀ r < w, (t r).User
  dtype_eq : ∀ r < w, (t r).dtype = dtype
  numel_eq : ∀ r < w, (t r).numel = n

/-- The algorithm that is chosen on every rank. -/
def algoFor (env : AllreduceEnv) (w : Nat) (dtype : ScalarType) (n : Nat) : AllreduceAlgo :=
  allreduce_algo env.algo env.tree_below (n * (wireType env dtype).elementSize) n w

section group
variable (env : AllreduceEnv) (op : RedOpType) {t : Nat → Tensor} {dtype : ScalarType} {n : Nat}
  (h : Matching w t dtype n)

include h in
theorem Matching.wire_type {r : Nat} (hr : r < w) :
    (wireOf env (t r) 0).dtype = wireType env dtype := by
  rw [wireOf_wireType, h.dtype_eq r hr]

include h in
theorem Matching.wire_numel {r : Nat} (hr : r < w) : (wireOf env (t r) 0).numel = n :=
  (wireOf_numel env 0 _).trans (h.numel_eq r hr)

include h in
theorem Matching.alg_eq {r : Nat} (hr : r < w) :
    (planOf env w (t r) 0).alg = algoFor env w dtype n := by
  have hbytes : (wireOf env (t r) 0).nbytes = n * (wireType env dtype).elementSize := by
    unfold Tensor.nbytes Tensor.element_size
    rw [h.wire_numel env hr, h.wire_type env hr]
  show allreduce_algo _ _ (wireOf env (t r) 0).nbytes (wireOf env (t r) 0).numel w = _
  rw [hbytes, h.wire_numel env hr]
  rfl

/-- The arguments of all ranks. -/
def countedGroup (hshared : ∀ r < w, (t r).shared = true) : AllreduceGroup where
  world := w
  op := op
  dtype := wireType env dtype
  numel := n % 2 ^ 32
  args := fun r => (planOf env w (t r) 0).args
  dtype_eq := fun _ hr => h.wire_type env hr
  numel_eq := fun r hr => by rw [planOf_numel, h.numel_eq r hr]
  t_shared := fun r hr => view_accessible ((wireOf_shared env 0 _).trans (hshared r hr))
  recv_shared := fun r hr => view_accessible ((wireOf_shared env 0 _).trans (hshared r hr))

theorem countedGroup_admits (hshared : ∀ r < w, (t r).shared = true) (hn : n < 2 ^ 32) :
    (algoFor env w dtype n).Admits (countedGroup env op h hshared) := by
  have hcount : (countedGroup env op h hshared).numel = n := Nat.mod_eq_of_lt hn
  have hadm := allreduce_algo_admits (countedGroup env op h hshared) env.algo env.tree_below
    (n * (wireType env dtype).elementSize)
  rw [hcount] at hadm
  apply hadm
  intro r hr
  have hscratch : (planOf env w (t r) 0).args.recv_view.nbytes =
      scratch_numel (wireOf env (t r) 0).numel w (planOf env w (t r) 0).alg *
        (wireOf env (t r) 0).dtype.elementSize := by
    simp [planOf, plan, Tensor.view, Tensor.nbytes, Tensor.numel, Tensor.element_size, recv_scratch,
      empty_like]
  show (planOf env w (t r) 0).args.recv_view.nbytes = _
  rw [hscratch, h.alg_eq env hr, h.wire_numel env hr, h.wire_type env hr]
  rfl

end group

/-! ## The call -/

/-- The state after the conversion. -/
def wired (env : AllreduceEnv) (t : Tensor) (s : RankState D) : RankState D :=
  if env.wire_bf16 ∧ t.dtype = .Float then
    { s with mem := store (D.codec .bf16) s.mem (bf16Of t 0).addr t.numel fun j =>
      D.roundBF16 (elem (D.codec .f32) s.mem t.addr j) }
  else s

/-- The state after the copy back. -/
def copied (t wt : Tensor) (s : RankState D) : RankState D :=
  if wt.addr ≠ t.addr then
    { s with mem := store (D.codec .f32) s.mem t.addr t.numel fun j =>
      D.widenBF16 (elem (D.codec .bf16) s.mem wt.addr j) }
  else s

section call
variable (env : AllreduceEnv) (op : RedOpType) {t : Tensor}

theorem wired_aux (s : RankState D) : (wired env t s).aux = s.aux := by
  unfold wired
  split <;> rfl

theorem wired_tag (s : RankState D) : (wired env t s).tag = s.tag := by
  unfold wired
  split <;> rfl

theorem wireStep_computes_wired (t : Tensor) (s : RankState D) :
    Computes (wireStep env t 0) s (wired env t s) () := by
  unfold wireStep wired
  split
  · exact Computes.modify _ s
  · exact Computes.ret _ _

theorem copy_back_computes_copied (t wt : Tensor) (s : RankState D) :
    Computes (copy_back t wt) s (copied t wt s) () := by
  unfold copy_back copied
  split
  · exact Computes.modify _ s
  · exact Computes.ret _ _

/-- What is left to do after the algorithm. -/
def wrapUp (t wt : Tensor) : RankProg D Unit := do
  mccl_queue_drain
  copy_back t wt
  make_completed

theorem wrapUp_computes (t wt : Tensor) (s : RankState D) :
    Computes (wrapUp t wt) s (completed none (copied t wt (drain s))) () :=
  (Computes.modify drain s).bind ((copy_back_computes_copied t wt _).bind (Computes.modify _ _))

theorem wrapUp_raceFree (t wt : Tensor) : (wrapUp t wt : RankProg D Unit).RaceFree :=
  .bind (.modify _) fun _ => .bind (copy_back_raceFree _ _) fun _ => .modify _

/-- The call for a tensor that is accepted. -/
theorem allreduce_prog_eq (h : t.Ok) (hw : 2 ≤ w) (r : Nat) :
    (ProcessGroupMCCL.allreduce ⟨r, w⟩ env op [t] : RankCall D).prog = (do
      wireStep env t 0
      (planOf env w t 0).alg.run (planOf env w t 0).args op r w
      wrapUp t (wireOf env t 0)) := by
  have hne : w ≠ 1 := by omega
  have hprep : (allreduce_prepare env w (entry [t] 0) 0 : RankProg D AllreducePlan) =
      wireStep env t 0 >>= fun _ => .ret (planOf env w t 0) := allreduce_prepare_eq env 0 h hw
  rw [ProcessGroupMCCL.allreduce, if_neg hne, Call.prog, Proc.check_pos (by simp), Proc.ret_bind,
    allreduce_body, List.length_singleton, List.range_one, List.mapM_cons, List.mapM_nil, hprep]
  simp only [Proc.bind_assoc, Proc.ret_bind, Proc.pure_eq, List.zip_cons_cons, List.zip_nil_right,
    List.forM_cons, List.forM_nil]
  rfl

/-- Any other tensor is refused. -/
theorem allreduce_fails (h : ¬t.Ok) (hw : 2 ≤ w) (r : Nat) (s : RankState D) :
    (ProcessGroupMCCL.allreduce ⟨r, w⟩ env op [t] : RankCall D).prog.Fails s := by
  have hne : w ≠ 1 := by omega
  have hprep : (allreduce_prepare env w t 0 : RankProg D AllreducePlan).Fails s := by
    unfold allreduce_prepare check_mps_
    by_cases hmps : t.is_mps = true
    · by_cases hcontiguous : t.is_contiguous = true
      · -- What is wrong with the tensor is also wrong with the converted one.
        have hsingle : ¬(wireOf env t 0).Single := by
          intro hs
          have hadmitted : admitted t.dtype = true := by
            have hwire := hs.admitted
            unfold wireOf at hwire
            split at hwire
            · rename_i hconv
              rw [hconv.2]
              rfl
            · exact hwire
          exact h ⟨by simpa [Tensor.is_mps] using hmps, hcontiguous, hadmitted,
            wireOf_numel env 0 t ▸ hs.numel_pos⟩
        obtain ⟨msg, hmsg⟩ := check_single_tensor_raise (D := D) hsingle
        rw [Proc.check_pos hmps, Proc.check_pos hcontiguous, Proc.ret_bind, wire_tensor_eq,
          Proc.ret_bind, Proc.bind_assoc]
        simp only [Proc.ret_bind, hmsg, Proc.raise_bind]
        unfold wireStep
        split <;> trivial
      · rw [Proc.check_pos hmps, Proc.ret_bind]
        exact (Proc.fails_check hcontiguous).bind _
    · exact ((Proc.fails_check hmps).bind _).bind _
  rw [ProcessGroupMCCL.allreduce, if_neg hne, Call.prog, Proc.check_pos (by simp), Proc.ret_bind,
    allreduce_body, List.length_singleton, List.range_one, List.mapM_cons]
  exact (((hprep.bind _).bind _).bind _)

end call

/-! ## Reduced indices -/

/-- Averages are divided by the number of ranks. -/
def averaged (D : Device UInt8) (op : RedOpType) (w : Nat) (f : Format) (y : D.F f) : D.F f :=
  if op = .AVG then D.apply .mul f y (D.viewFactor (D.recip w) f) else y

/-- Index `i` of the tensors holds, on every rank, a value that combines the
    elements of all ranks at that index, each of them once. -/
inductive ReducedAt (env : AllreduceEnv) (op : RedOpType) (w : Nat) (t : Nat → Tensor)
    (st st' : Nat → RankState D) (i : Nat) : Prop where
  | direct {f : Format} {k : BinaryOp} {y : D.F f}
      (hwire : ¬(env.wire_bf16 ∧ (t 0).dtype = .Float)) (hf : (t 0).dtype.format = some f)
      (hk : op.kernel = some k)
      (hy : Combines (D.apply k f) (fun q => elem (D.codec f) (st q).mem (t q).addr i)
        (List.range w) y)
      (heq : ∀ r < w, elem (D.codec f) (st' r).mem (t r).addr i = averaged D op w f y)
  /-- With `MCCL_WIRE_DTYPE=bf16` the elements are rounded before. -/
  | rounded {k : BinaryOp} {y : D.F .bf16} (hwire : env.wire_bf16 ∧ (t 0).dtype = .Float)
      (hk : op.kernel = some k)
      (hy : Combines (D.apply k .bf16)
        (fun q => D.roundBF16 (elem (D.codec .f32) (st q).mem (t q).addr i)) (List.range w) y)
      (heq : ∀ r < w, elem (D.codec .f32) (st' r).mem (t r).addr i =
        D.widenBF16 (averaged D op w .bf16 y))

/-- The devices are idle and have the same kernels, and all ranks work on the
    same operation. -/
structure Alike (w : Nat) (st : Nat → RankState D) : Prop where
  idle : ∀ r < w, (st r).aux.metal.Idle
  cache : ∀ r < w, (st r).aux.metal.cache = (st 0).aux.metal.cache
  tag : ∀ r < w, ∀ q < w, (st r).tag = (st q).tag

section run
variable (env : AllreduceEnv) (op : RedOpType) {t : Nat → Tensor} {dtype : ScalarType} {n : Nat}
  {st : Nat → RankState D}

/-- The ranks after the conversion. -/
def wiredAll (env : AllreduceEnv) (w : Nat) (t : Nat → Tensor) (st : Nat → RankState D) (r : Nat) :
    RankState D :=
  if r < w then wired env (t r) (st r) else st r

theorem wiredAll_aux (r : Nat) : (wiredAll env w t st r).aux = (st r).aux := by
  unfold wiredAll
  split
  · exact wired_aux env _
  · rfl

theorem wiredAll_tag (r : Nat) : (wiredAll env w t st r).tag = (st r).tag := by
  unfold wiredAll
  split
  · exact wired_tag env _
  · rfl

theorem wire_triple : Triple cap (List.range w) (· = st) (fun r => wireStep env (t r) 0)
    (· = wiredAll env w t st) := by
  apply Triple.comp fun r _ => wireStep_raceFree env 0 _
  rintro _ rfl
  refine ⟨_, rfl, fun r hr => ?_, fun r hr => ?_⟩
  · rw [wiredAll, if_pos (List.mem_range.mp hr)]
    exact wireStep_computes_wired env (t r) _
  · exact if_neg (by simpa using hr)

variable (h : Matching w t dtype n) (hshared : ∀ r < w, (t r).shared = true)

theorem countedGroup_tensor {f : Format} (r i : Nat) :
    (countedGroup env op h hshared).tensor f st r i =
      elem (D.codec f) (st r).mem (wireOf env (t r) 0).addr i := rfl

/-- A conversion has a buffer of its own. -/
theorem bf16Of_ne {t : Tensor} (ht : t.User) : (bf16Of t 0).addr ≠ t.addr := by
  obtain ⟨id, hid⟩ := ht
  intro heq
  have hbuf : (bf16Of t 0).storage = t.storage := (Prod.mk.inj heq).1
  rw [hid] at hbuf
  cases hbuf

/-- The values that the ranks start with and end with. -/
theorem reducedAt_of_holds (hw : 0 < w) {f : Format} {k : BinaryOp}
    (hsup : (st 0).aux.metal.cache.Supports (wireType env dtype) op f k) {y : Nat → D.F f}
    (hy : ∀ i < n % 2 ^ 32, Combines (D.apply k f) (fun q =>
      (countedGroup env op h hshared).tensor f (wiredAll env w t st) q i) (List.range w) (y i))
    {st' st'' : Nat → RankState D}
    (hst' : (countedGroup env op h hshared).Holds f k (fun _ i => averaged D op w f (y i)) st')
    (hst'' : ∀ r < w, (st'' r).mem = (copied (t r) (wireOf env (t r) 0) (drain (st' r))).mem)
    {i : Nat} (hi : i < n % 2 ^ 32) : ReducedAt env op w t st st'' i := by
  have hlt : ∀ r < w, i < (t r).numel := by
    intro r hr
    rw [h.numel_eq r hr]
    exact Nat.lt_of_lt_of_le hi (Nat.mod_le _ _)
  have hdrain : ∀ r < w, (drain (st' r)).mem = (st' r).mem :=
    fun r hr => drain_mem (hst'.ready.idle r hr).committed
  by_cases hconv : env.wire_bf16 ∧ dtype = .Float
  · -- The tensor was converted: `f` is `bf16`.
    have hwire : ∀ r < w, wireOf env (t r) 0 = bf16Of (t r) 0 := by
      intro r hr
      rw [wireOf, h.dtype_eq r hr, if_pos hconv]
    have hf : f = .bf16 := by
      have hformat := hsup.format
      rw [wireType, if_pos hconv] at hformat
      exact (Option.some.inj hformat).symm
    subst hf
    apply ReducedAt.rounded (h.dtype_eq 0 hw ▸ hconv) hsup.kernel (y := y i)
    · apply (hy i hi).congr
      intro q hq
      rw [List.mem_range] at hq
      rw [countedGroup_tensor, hwire q hq, wiredAll, if_pos hq, wired,
        if_pos (h.dtype_eq q hq ▸ hconv)]
      dsimp only
      rw [elem_store (hlt q hq)]
    · intro r hr
      have hvalue := hst'.tensor_eq r hr i hi
      rw [countedGroup_tensor, hwire r hr] at hvalue
      rw [hst'' r hr, hwire r hr, copied, if_pos (bf16Of_ne (h.user r hr)), hdrain r hr]
      dsimp only
      rw [elem_store (hlt r hr), hvalue]
  · have hwire : ∀ r < w, wireOf env (t r) 0 = t r := by
      intro r hr
      rw [wireOf, h.dtype_eq r hr, if_neg hconv]
    have hformat := hsup.format
    rw [wireType, if_neg hconv] at hformat
    apply ReducedAt.direct (h.dtype_eq 0 hw ▸ hconv) (h.dtype_eq 0 hw ▸ hformat) hsup.kernel
      (y := y i)
    · apply (hy i hi).congr
      intro q hq
      rw [List.mem_range] at hq
      rw [countedGroup_tensor, hwire q hq, wiredAll, if_pos hq, wired,
        if_neg (h.dtype_eq q hq ▸ hconv)]
    · intro r hr
      have hvalue := hst'.tensor_eq r hr i hi
      rw [countedGroup_tensor, hwire r hr] at hvalue
      rw [hst'' r hr, hwire r hr, copied, if_neg (not_not.mpr rfl), hdrain r hr, hvalue]

/-- The calls of all ranks. -/
def allreduceCalls (env : AllreduceEnv) (op : RedOpType) (w : Nat) (t : Nat → Tensor) (r : Nat) :
    RankProg D Unit :=
  (ProcessGroupMCCL.allreduce ⟨r, w⟩ env op [t r]).prog

include h in
theorem allreduceCalls_eq (hok : ∀ r < w, (t r).Ok) (hw : 2 ≤ w) {r : Nat} (hr : r < w) :
    (allreduceCalls env op w t r : RankProg D Unit) = (do
      wireStep env (t r) 0
      (algoFor env w dtype n).run (planOf env w (t r) 0).args op r w
      wrapUp (t r) (wireOf env (t r) 0)) := by
  rw [allreduceCalls, allreduce_prog_eq env op (hok r hr) hw, h.alg_eq env hr]

/-- The devices after the conversion. -/
theorem ready_wiredAll {f : Format} {k : BinaryOp} {G : AllreduceGroup} (hst : G.Ready f k st) :
    G.Ready f k (wiredAll env w t st) :=
  hst.of_eq (wiredAll_aux env) (wiredAll_tag env)

/-- Where the kernels are there, the counted indices are reduced. -/
theorem counted_triple (hcap : 0 < cap) (hw : 2 ≤ w) (hok : ∀ r < w, (t r).Ok)
    (hadm : (algoFor env w dtype n).Admits (countedGroup env op h hshared)) {f : Format}
    {k : BinaryOp} (hready : (countedGroup env op h hshared).Ready f k st) :
    Triple cap (List.range w) (· = st) (allreduceCalls env op w t) fun st' =>
      ∀ i < n % 2 ^ 32, ReducedAt env op w t st st' i := by
  have hzero : 0 < w := by omega
  let G := countedGroup env op h hshared
  obtain ⟨y, hy, hrun⟩ := AllreduceGroup.allreduce_combines (k := k) (ω := Host)
    (algoFor env w dtype n) hcap (G := G) hw hadm (G.tensor f (wiredAll env w t st))
  have hstart : ∀ st₁, st₁ = wiredAll env w t st →
      G.Holds f k (G.tensor f (wiredAll env w t st)) st₁ := by
    rintro _ rfl
    exact ⟨ready_wiredAll env hready, fun _ _ _ _ => rfl⟩
  have hfinish : Triple cap (List.range w) (G.Holds f k fun _ i => G.scaled D f (y i))
      (fun r => wrapUp (t r) (wireOf env (t r) 0)) fun st' =>
      ∀ i < n % 2 ^ 32, ReducedAt env op w t st st' i := by
    apply Triple.comp fun r _ => wrapUp_raceFree _ _
    intro st₁ hst₁
    refine ⟨fun r => if r < w then
      completed none (copied (t r) (wireOf env (t r) 0) (drain (st₁ r))) else st₁ r, ?_, ?_, ?_⟩
    · intro i hi
      apply reducedAt_of_holds env op h hshared hzero (hready.supports 0 hzero) hy hst₁ _ hi
      intro r hr
      rw [if_pos hr]
      rfl
    · intro r hr
      simp only [List.mem_range.mp hr, if_true]
      exact wrapUp_computes _ _ _
    · intro r hr
      exact if_neg (by simpa using hr)
  apply ((wire_triple env).seq ((hrun.conseq hstart fun _ h => h).seq hfinish)).congr
  intro r hr
  exact allreduceCalls_eq env op h hok hw (List.mem_range.mp hr)

include h in
theorem allreduceCalls_raise (hw : 2 ≤ w) (hok : ∀ r < w, (t r).Ok)
    (hraising : Raising cap (List.range w) (· = wiredAll env w t st)
      (fun r => (algoFor env w dtype n).run (planOf env w (t r) 0).args op r w) 0) :
    Raises cap (start (List.range w) st (allreduceCalls env op w t)) 0 := by
  have hrest := hraising.seq (q := fun r => wrapUp (t r) (wireOf env (t r) 0))
    fun r _ => wrapUp_raceFree _ _
  have hcalls : Raising cap (List.range w) (· = st) (allreduceCalls env op w t) 0 := by
    apply (Raising.after (wire_triple env) hrest).congr
    intro r hr
    exact allreduceCalls_eq env op h hok hw (List.mem_range.mp hr)
  exact hcalls.raises rfl

end run

/-! ## Main results -/

theorem pso_binary {op k : BinaryOp} {f' : Format}
    (h : c.pso op f = some (k, f')) : c.binary k f' = true := by
  unfold KernelCache.pso at h
  split at h
  · cases h
    assumption
  · cases h

theorem select_op_pipeline_binary {k : BinaryOp} (h : select_op_pipeline c dtype op = some (k, f)) :
    c.binary k f = true := by
  cases op <;> cases dtype <;> first | exact pso_binary h | cases h

theorem KernelCache.Reduces.kernel (h : c.Reduces dtype op) (htyped : TypedPipeline dtype op) :
    ∃ f k, dtype.format = some f ∧ op.kernel = some k ∧ c.binary k f = true := by
  obtain ⟨⟨k, f⟩, hsel⟩ := Option.isSome_iff_exists.mp h.2
  obtain ⟨hk, hf⟩ := select_op_pipeline_typed htyped hsel
  exact ⟨f, k, hf, hk, select_op_pipeline_binary hsel⟩

theorem select_scale_pipeline_none
    (hf : dtype.format = some f) (hno : ¬c.scale f = true) : select_scale_pipeline c dtype = none := by
  rw [select_scale_pipeline_filter, hf]
  exact if_neg hno

section main
variable {env : AllreduceEnv} {op : RedOpType} {t : Nat → Tensor} {dtype : ScalarType} {n : Nat}
  {st : Nat → RankState D}

theorem raises_of_not_ok (hw : 2 ≤ w) {r : Nat} (hr : r < w) (hno : ¬(t r).Ok) :
    Raises cap (start (List.range w) st (allreduceCalls env op w t)) r :=
  .start (List.mem_range.mpr hr) (allreduce_fails env op hno hw r (st r))

theorem raises_of_private (hw : 2 ≤ w) {r : Nat} (hr : r < w) (hok : (t r).Ok)
    (hno : ¬(t r).shared = true) :
    Raises cap (start (List.range w) st (allreduceCalls env op w t)) r := by
  apply Raises.start (List.mem_range.mpr hr)
  have hwire : ¬(wireOf env (t r) 0).shared = true := by rwa [wireOf_shared]
  have hprivate : ∀ u : Tensor, u.device = .MPS → ¬u.shared = true → u.view.cpu_accessible = false := by
    intro u hmps hu
    simpa [Tensor.view, Tensor.is_cpu, hmps] using hu
  have hdevice : (wireOf env (t r) 0).device = .MPS := (wireOf_ok env 0 hok).mps
  obtain ⟨msg, hmsg⟩ := (planOf env w (t r) 0).alg.run_private (D := D) (ω := Host) op
    (planOf env w (t r) 0).args (hprivate _ hdevice hwire)
    (hprivate (recv_scratch (wireOf env (t r) 0) 0 _) hdevice hwire) hw hr
  rw [allreduceCalls, allreduce_prog_eq env op hok hw, hmsg, Proc.raise_bind]
  unfold wireStep
  split <;> trivial

section kernels
variable (hcap : 0 < cap) (hw : 2 ≤ w) (h : Matching w t dtype n) (hst : Alike w st)
  (hok : ∀ r < w, (t r).Ok) (hshared : ∀ r < w, (t r).shared = true)
  (hadm : (algoFor env w dtype n).Admits (countedGroup env op h hshared))

include hcap hw hst hok hadm

theorem raises_of_no_kernel (hno : ¬(st 0).aux.metal.cache.Reduces (wireType env dtype) op) :
    Raises cap (start (List.range w) st (allreduceCalls env op w t)) 0 := by
  apply allreduceCalls_raise env op h hw hok
  apply AllreduceGroup.raising_of_no_kernel (G := countedGroup env op h hshared) hcap hw _ _ _ hadm
  · intro r hr q hq
    rw [wiredAll_tag, wiredAll_tag]
    exact hst.tag r hr q hq
  · rw [wiredAll_aux]
    exact hno

theorem raises_of_no_scale (havg : op = .AVG) {f : Format} {k : BinaryOp}
    (hsup : (st 0).aux.metal.cache.Supports (wireType env dtype) .SUM f k)
    (hno : ¬(st 0).aux.metal.cache.scale f = true) :
    Raises cap (start (List.range w) st (allreduceCalls env op w t)) 0 := by
  apply allreduceCalls_raise env op h hw hok
  apply AllreduceGroup.raising_of_no_scale (G := countedGroup env op h hshared) _ hadm hcap hw havg
  · apply ready_wiredAll (f := f) (k := k)
    exact ⟨hst.idle, fun r hr => hst.cache r hr ▸ hsup, hst.tag⟩
  · rw [wiredAll_aux]
    exact select_scale_pipeline_none hsup.format hno

end kernels

end main

theorem freshState_alike (w : Nat) : Alike w freshState :=
  ⟨fun _ _ => ⟨rfl, rfl⟩, fun _ _ => rfl, fun _ _ _ _ => rfl⟩

theorem userTensor_matching (w : Nat) (dtype : ScalarType) (n : Nat) :
    Matching w (fun _ => userTensor dtype 0 n) dtype n :=
  ⟨fun _ _ => ⟨0, rfl⟩, fun _ _ => rfl, fun _ _ => by simp [userTensor, Tensor.numel]⟩

/-- No environment variable is set. -/
def defaultEnv : AllreduceEnv := ⟨false, none, 256 * 1024⟩

section rest
variable (env : AllreduceEnv) (op : RedOpType) {t : Tensor}

theorem wrapUp_confined {A : Addr → Prop} {m : Addr → UInt8} (t : Tensor) :
    (wrapUp t t : RankProg D Unit).Confined (Spared A m) := by
  refine .bind drain_confined fun _ => .bind ?_ fun _ => .modify fun s hs => ?_
  · rw [copy_back, if_neg (not_not.mpr rfl)]
    trivial
  · exact ⟨hs.mem, hs.committed, hs.batch⟩

/-- **The rest is left as it is**: in no net, and in no state of any run, has an
    allreduce changed an element that its count does not include. -/
theorem allreduce_leaves_rest (hw : 2 ≤ w) (hok : t.Ok)
    (hdirect : ¬(env.wire_bf16 ∧ t.dtype = .Float)) (htyped : TypedPipeline t.dtype op) {r : Nat}
    {x y : Net Nat Addr UInt8 (Local D Host)}
    (hx : (x.node r).prog = (ProcessGroupMCCL.allreduce ⟨r, w⟩ env op [t]).prog)
    (hidle : (x.node r).store.aux.metal.Idle) (hy : Reaches cap x y) {j : Nat}
    (hj : t.numel % 2 ^ 32 * t.element_size ≤ j) :
    (y.node r).store.mem (t.storage, t.addr.2 + j) =
      (x.node r).store.mem (t.storage, t.addr.2 + j) := by
  have hwire : wireOf env t 0 = t := if_neg hdirect
  have htype : (planOf env w t 0).args.dtype = t.dtype := congrArg Tensor.dtype hwire
  have hprog : (x.node r).prog.Confined
      (Spared (planOf env w t 0).args.Region (x.node r).store.mem) := by
    rw [hx, allreduce_prog_eq env op hok hw, wireStep, if_neg hdirect, Proc.ret_bind, hwire]
    exact .bind (AllreduceAlgo.run_confined _ (htype ▸ htyped)) fun _ => wrapUp_confined t
  have hspared := (confined_reaches hy hprog (.of_idle hidle)).1
  apply hspared.mem
  intro hregion
  have hbuf : (planOf env w t 0).args.t_view.mtl_buffer = t.storage := congrArg Tensor.storage hwire
  have hoff : (planOf env w t 0).args.t_view.byte_offset = t.addr.2 :=
    congrArg (fun u => u.addr.2) hwire
  have hlt := hregion hbuf.symm
  rw [hoff, AllreduceArgs.nbytes, AllreduceArgs.esize, planOf_numel, htype] at hlt
  dsimp only at hlt
  unfold Tensor.element_size at hj
  omega

end rest

end Mccl
