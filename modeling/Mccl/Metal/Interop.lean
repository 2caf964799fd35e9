import Mccl.Metal.Kernels

/-! # Tensors, Staging and Tensor Kernels

    Model of `common/TensorChecks.hpp`, of the part of `metal/MPSInterop.mm`
    that the process group uses, and of the tensor versions of the kernels in
    `metal/MetalKernels.mm`. Bytes are `UInt8` from here on.

    * A tensor is a view into a storage. In shared storage the host reads and
      writes its bytes in place; private storage goes through the staging pool.
    * The pool allocates a new buffer whenever it has to grow.
    * `Calm`: what staging leaves alone. -/

namespace Mccl

open ForkJoin Arrays

/-! ## Tensors -/

inductive DeviceType where
  | CPU | CUDA | MPS
  deriving DecidableEq, Repr

/-- `c10::DeviceTypeName`. -/
def DeviceType.name : DeviceType → String
  | .CPU => "CPU"
  | .CUDA => "CUDA"
  | .MPS => "MPS"

/-- `c10::Device::str`. -/
def DeviceType.str : DeviceType → String
  | .CPU => "cpu"
  | .CUDA => "cuda:0"
  | .MPS => "mps:0"

/-- `at::Tensor`. -/
structure Tensor where
  device : DeviceType
  dtype : ScalarType
  sizes : List Nat
  is_contiguous : Bool
  storage : Buf
  /-- In elements. -/
  storage_offset : Nat
  /-- The storage mode is `MTLStorageModeShared`. -/
  shared : Bool
  deriving DecidableEq, Repr

instance : Inhabited Tensor := ⟨⟨.CPU, .Float, [], true, .mtl 0, 0, true⟩⟩

namespace Tensor

def is_mps (t : Tensor) : Bool := t.device == .MPS

def is_cpu (t : Tensor) : Bool := t.device == .CPU

def numel (t : Tensor) : Nat := t.sizes.prod

def element_size (t : Tensor) : Nat := t.dtype.elementSize

def nbytes (t : Tensor) : Nat := t.numel * t.element_size

/-- Where the bytes of the tensor start. -/
def addr (t : Tensor) : Addr := (t.storage, t.storage_offset * t.element_size)

/-- A wrapped CPU tensor is a shared buffer over the same bytes. -/
def view (t : Tensor) : MPSBufferView where
  mtl_buffer := t.storage
  byte_offset := t.storage_offset * t.element_size
  nbytes := t.nbytes
  cpu_accessible := t.is_cpu || t.shared

/-- The bytes of the tensor. -/
def span (t : Tensor) : List Addr := Arrays.span t.addr t.nbytes

/-- Byte `j` of the tensor in the memory `m`. -/
def byte (t : Tensor) (m : Addr → UInt8) (j : Nat) : UInt8 := m (t.addr.1, t.addr.2 + j)

end Tensor

/-- The types that the collectives admit. -/
def admitted : ScalarType → Bool
  | .Float | .Half | .BFloat16 | .Double | .Long | .Int | .Short | .Char | .Byte | .Bool => true
  | _ => false

/-! ## The state of a rank -/

/-- The staging buffer, which is replaced when it is too small. -/
structure StagingPool where
  gen : Nat
  capacity : Nat
  deriving DecidableEq, Repr

/-- A finished `WorkMCCL`: its exception, and the memory of the rank at that
    moment (ghost). -/
structure Work where
  error : Option String
  mem : Addr → UInt8

structure Host where
  pool : StagingPool
  /-- The operations that have finished, oldest first. -/
  works : List Work

abbrev RankState (D : Device UInt8) := RankStore D Host

abbrev RankProg (D : Device UInt8) (α : Type) := Prog D Host α

variable {D : Device UInt8}

def setPool (s : RankState D) (p : StagingPool) : RankState D :=
  { s with aux := { s.aux with host := { s.aux.host with pool := p } } }

def memcpy (dst src : Addr) (n : Nat) : RankProg D Unit :=
  .modify fun s => { s with mem := copy s.mem dst src n }

/-- The data of heap buffer number `i`. -/
def heap (i : Nat) : Addr := (.host i, 0)

/-- `std::vector<uint8_t>(n)` as heap buffer number `i`: its bytes are zero. -/
def vector (i n : Nat) : RankProg D Unit := .modify fun s => { s with mem := fill s.mem (heap i) n 0 }

/-- `a + n` for a byte pointer. -/
def off (a : Addr) (n : Nat) : Addr := (a.1, a.2 + n)

/-! ## Checks -/

def check_single_tensor (t : Tensor) : RankProg D Unit := do
  .check (t.is_mps || t.is_cpu)
    ("MCCL requires MPS or CPU tensors (unified memory), got device: " ++ t.device.str)
  .check t.is_contiguous
    "MCCL v1 requires contiguous tensors. Call .contiguous() before passing to collective."
  .check (admitted t.dtype) ("MCCL: unsupported dtype " ++ t.dtype.toString)
  .check (0 < t.numel) "MCCL does not accept empty tensors"

def check_same_shape_dtype (a b : Tensor) : RankProg D Unit := do
  .check (a.sizes = b.sizes) "Shape mismatch in collective"
  .check (a.dtype = b.dtype) "Dtype mismatch in collective"

def extract_mps_buffer (t : Tensor) : RankProg D MPSBufferView := do
  check_single_tensor t
  pure t.view

/-! ## Staging -/

structure StagingBuffer where
  data : Addr
  nbytes : Nat
  deriving DecidableEq, Repr

instance : Inhabited StagingBuffer := ⟨⟨(.pool 0, 0), 0⟩⟩

def StagingPool.ptr (p : StagingPool) : Addr := (.pool p.gen, 0)

def PAGE : Nat := 16384

def StagingPool.ensure (p : StagingPool) (n : Nat) : StagingPool :=
  if n > p.capacity then ⟨p.gen + 1, (n + PAGE - 1) / PAGE * PAGE⟩ else p

def ensure (n : Nat) : RankProg D Addr := do
  .modify fun s => setPool s (s.aux.host.pool.ensure n)
  let s ← .get
  pure s.aux.host.pool.ptr

/-- A blit on the queue of the kernels. Waiting for it waits for everything
    that was committed before. -/
def blit (dst src : Addr) (n : Nat) : RankProg D Unit := do
  mccl_queue_drain
  memcpy dst src n

def stage_for_send_nosync (t : Tensor) : RankProg D StagingBuffer := do
  check_single_tensor t
  let view ← extract_mps_buffer t
  match view.cpu_ptr with
  | some p => pure ⟨p, view.nbytes⟩
  | none => do
    let staging ← ensure view.nbytes
    blit staging view.addr view.nbytes
    pure ⟨staging, view.nbytes⟩

/-- The bytes are copied into the pool unless they are there already. -/
def pool_source (src : Addr) (nbytes : Nat) : RankProg D Addr := do
  let s ← .get
  if src = s.aux.host.pool.ptr then pure src else do
    let staging ← ensure nbytes
    memcpy staging src nbytes
    pure staging

def unstage_from_recv (t : Tensor) (src : Addr) (nbytes : Nat) : RankProg D Unit := do
  check_single_tensor t
  .check (nbytes = t.nbytes) "unstage size mismatch"
  let view ← extract_mps_buffer t
  match view.cpu_ptr with
  | some p => memcpy p src nbytes
  | none => do
    let blit_src ← pool_source src nbytes
    blit view.addr blit_src nbytes

/-! ## Kernels on tensors -/

def UINT32_MAX : Nat := 4294967295

def safe_numel (t : Tensor) : RankProg D Nat := do
  .check (t.numel ≤ UINT32_MAX) ("Tensor too large for Metal kernels (" ++ toString t.numel ++
    " elements, max " ++ toString UINT32_MAX ++ "). Use CPU reduction path for this tensor.")
  pure t.numel

def metal_accumulate_chunk (dst src : Tensor) : RankProg D Unit := do
  let s ← .get
  .check s.aux.metal.cache.initialized "metal_kernels_init() not called"
  check_same_shape_dtype dst src
  let dst_view ← extract_mps_buffer dst
  let src_view ← extract_mps_buffer src
  let count ← safe_numel dst
  match select_accumulate_pipeline s.aux.metal.cache dst.dtype with
  | none => .raise ("No Metal accumulate pipeline for dtype " ++ dst.dtype.toString)
  | some (k, f) => dispatch (.binary k f dst_view.addr src_view.addr count)

def dispatch_binary_op (pso : BinaryOp × Format) (dst src : Tensor) : RankProg D Unit := do
  let dst_view ← extract_mps_buffer dst
  let src_view ← extract_mps_buffer src
  let count ← safe_numel dst
  dispatch (.binary pso.1 pso.2 dst_view.addr src_view.addr count)

/-- `metal_elementwise_min`, `_max` and `_product`. -/
def metal_elementwise (op : BinaryOp) (name : String) (dst src : Tensor) : RankProg D Unit := do
  let s ← .get
  .check s.aux.metal.cache.initialized "metal_kernels_init() not called"
  check_same_shape_dtype dst src
  match select_elementwise_pipeline s.aux.metal.cache op dst.dtype with
  | none => .raise ("No Metal " ++ name ++ " pipeline for dtype " ++ dst.dtype.toString)
  | some pso => dispatch_binary_op pso dst src

def metal_elementwise_min (dst src : Tensor) : RankProg D Unit := metal_elementwise .min "min" dst src

def metal_elementwise_max (dst src : Tensor) : RankProg D Unit := metal_elementwise .max "max" dst src

def metal_elementwise_product (dst src : Tensor) : RankProg D Unit :=
  metal_elementwise .mul "product" dst src

def metal_reduce_op (dst src : Tensor) (op : RedOpType) : RankProg D Unit :=
  match op with
  | .SUM | .AVG => metal_accumulate_chunk dst src
  | .MIN => metal_elementwise_min dst src
  | .MAX => metal_elementwise_max dst src
  | .PRODUCT => metal_elementwise_product dst src
  | _ => .raise ("Unsupported ReduceOp: " ++ toString op.toNat)

/-- The factor as `metal_scale_inplace` passes it: bfloat16 rounds. -/
def tensorFactor (D : Device UInt8) (x : D.Double) : (f : Format) → D.F f
  | .f16 => D.toF16 x
  | .bf16 => D.roundBF16 (D.toF32 x)
  | .f32 => D.toF32 x

def metal_scale_inplace (buf : Tensor) (scale : D.Double) : RankProg D Unit := do
  let s ← .get
  .check s.aux.metal.cache.initialized "metal_kernels_init() not called"
  let view ← extract_mps_buffer buf
  let count ← safe_numel buf
  match select_scale_pipeline s.aux.metal.cache buf.dtype with
  | none => .raise ("No Metal scale pipeline for dtype " ++ buf.dtype.toString)
  | some f => dispatch (.scale f view.addr (tensorFactor D scale f) count)

/-! ## Admitted tensors -/

/-- The tensor passes `check_mps_` and `check_single_tensor`. -/
structure Tensor.Ok (t : Tensor) : Prop where
  mps : t.device = .MPS
  contiguous : t.is_contiguous = true
  admitted : admitted t.dtype = true
  numel_pos : 0 < t.numel

/-- A tensor of the user, not a buffer of the library. -/
def Tensor.User (t : Tensor) : Prop := ∃ id, t.storage = .mtl id

variable {t : Tensor}

theorem Tensor.element_size_pos (t : Tensor) : 0 < t.element_size := by
  unfold Tensor.element_size
  cases t.dtype <;> decide

theorem Tensor.Ok.nbytes_pos (h : t.Ok) : 0 < t.nbytes :=
  Nat.mul_pos h.numel_pos t.element_size_pos

theorem check_single_tensor_eq (h : t.Ok) : (check_single_tensor t : RankProg D Unit) = .ret () := by
  simp [check_single_tensor, Tensor.is_mps, h.mps, h.contiguous, h.admitted, h.numel_pos]

theorem extract_mps_buffer_eq (h : t.Ok) :
    (extract_mps_buffer t : RankProg D MPSBufferView) = .ret t.view := by
  simp [extract_mps_buffer, check_single_tensor_eq h]

theorem Tensor.Ok.cpu_ptr_eq (h : t.Ok) :
    t.view.cpu_ptr = if t.shared then some t.addr else none := by
  simp [MPSBufferView.cpu_ptr, Tensor.view, Tensor.is_cpu, h.mps, MPSBufferView.addr, Tensor.addr]

/-! ## What staging does -/

/-- Everything but the memory and the pool is as before, except that
    committed kernels may have been executed. -/
structure Calm (s s' : RankState D) : Prop where
  tag : s'.tag = s.tag
  cache : s'.aux.metal.cache = s.aux.metal.cache
  batch : s'.aux.metal.batch_cmd = s.aux.metal.batch_cmd
  works : s'.aux.host.works = s.aux.host.works
  committed : s.aux.metal.committed = [] → s'.aux.metal.committed = []

/-- Messages and kernels leave these parts of the state alone. -/
structure Kept (s s' : RankState D) : Prop where
  tag : s'.tag = s.tag
  cache : s'.aux.metal.cache = s.aux.metal.cache
  batch : s'.aux.metal.batch_cmd = s.aux.metal.batch_cmd
  works : s'.aux.host.works = s.aux.host.works

theorem Kept.trans {s s' s'' : RankState D} (h : Kept s s') (h' : Kept s' s'') : Kept s s'' :=
  ⟨h'.tag.trans h.tag, h'.cache.trans h.cache, h'.batch.trans h.batch, h'.works.trans h.works⟩

theorem Calm.kept {s s' : RankState D} (h : Calm s s') : Kept s s' :=
  ⟨h.tag, h.cache, h.batch, h.works⟩

namespace Calm

theorem refl (s : RankState D) : Calm s s := ⟨rfl, rfl, rfl, rfl, id⟩

theorem trans {s s' s'' : RankState D} (h : Calm s s') (h' : Calm s' s'') : Calm s s'' :=
  ⟨h'.tag.trans h.tag, h'.cache.trans h.cache, h'.batch.trans h.batch, h'.works.trans h.works,
    fun hc => h'.committed (h.committed hc)⟩

theorem of_mem (s : RankState D) (m : Addr → UInt8) : Calm s { s with mem := m } :=
  ⟨rfl, rfl, rfl, rfl, id⟩

theorem setPool (s : RankState D) (p : StagingPool) : Calm s (setPool s p) :=
  ⟨rfl, rfl, rfl, rfl, id⟩

theorem drain (s : RankState D) : Calm s (drain s) := ⟨rfl, rfl, rfl, rfl, fun _ => rfl⟩

theorem of_aux {s s' : RankState D} (htag : s'.tag = s.tag) (haux : s'.aux = s.aux) : Calm s s' :=
  ⟨htag, by rw [haux], by rw [haux], by rw [haux], by rw [haux]; exact id⟩

end Calm

theorem memcpy_computes (dst src : Addr) (n : Nat) (s : RankState D) :
    Computes (memcpy dst src n : RankProg D Unit) s { s with mem := copy s.mem dst src n } () :=
  Computes.modify _ s

theorem vector_computes (i n : Nat) (s : RankState D) :
    Computes (vector i n : RankProg D Unit) s { s with mem := fill s.mem (heap i) n 0 } () :=
  Computes.modify _ s

/-- The store after `blit`. -/
def blitted (dst src : Addr) (n : Nat) (s : RankState D) : RankState D :=
  { drain s with mem := copy (drain s).mem dst src n }

theorem blit_computes (dst src : Addr) (n : Nat) (s : RankState D) :
    Computes (blit dst src n : RankProg D Unit) s (blitted dst src n s) () :=
  (Computes.modify drain s).bind (memcpy_computes _ _ _ _)

theorem blitted_calm (dst src : Addr) (n : Nat) (s : RankState D) : Calm s (blitted dst src n s) :=
  (Calm.drain s).trans (Calm.of_mem _ _)

theorem ensure_computes (n : Nat) (s : RankState D) :
    Computes (ensure n : RankProg D Addr) s (setPool s (s.aux.host.pool.ensure n))
      (s.aux.host.pool.ensure n).ptr :=
  (Computes.modify _ s).bind ((Computes.get _).bind (Computes.ret _ _))

/-- The store after staging a tensor. -/
def staged (t : Tensor) (s : RankState D) : RankState D :=
  if t.shared then s else
    blitted (s.aux.host.pool.ensure t.nbytes).ptr t.addr t.nbytes
      (setPool s (s.aux.host.pool.ensure t.nbytes))

/-- Where the staged bytes are. -/
def stagedAt (t : Tensor) (s : RankState D) : Addr :=
  if t.shared then t.addr else (s.aux.host.pool.ensure t.nbytes).ptr

theorem staged_shared (h : t.shared = true) (s : RankState D) : staged t s = s := if_pos h

theorem stagedAt_shared (h : t.shared = true) (s : RankState D) : stagedAt t s = t.addr := if_pos h

theorem staged_calm (t : Tensor) (s : RankState D) : Calm s (staged t s) := by
  unfold staged
  split
  · exact .refl s
  · exact (Calm.setPool s _).trans (blitted_calm _ _ _ _)

theorem stage_computes (h : t.Ok) (s : RankState D) :
    Computes (stage_for_send_nosync t : RankProg D StagingBuffer) s (staged t s)
      ⟨stagedAt t s, t.nbytes⟩ := by
  rw [stage_for_send_nosync, check_single_tensor_eq h, Proc.ret_bind, extract_mps_buffer_eq h,
    Proc.ret_bind, h.cpu_ptr_eq]
  unfold staged stagedAt
  cases t.shared
  · exact (ensure_computes _ _).bind ((blit_computes _ _ _ _).bind (Computes.ret _ _))
  · exact Computes.ret _ _

theorem stage_returns (h : t.Ok) :
    (stage_for_send_nosync t : RankProg D StagingBuffer).Returns fun sb =>
      sb.nbytes = t.nbytes ∧ (sb.data.1 = t.storage ∨ ∃ gen, sb.data.1 = .pool gen) := by
  rw [stage_for_send_nosync, check_single_tensor_eq h, Proc.ret_bind, extract_mps_buffer_eq h,
    Proc.ret_bind, h.cpu_ptr_eq]
  cases t.shared
  · exact fun _ s _ _ => ⟨rfl, .inr ⟨_, rfl⟩⟩
  · exact ⟨rfl, .inl rfl⟩

theorem check_single_tensor_straight (t : Tensor) :
    (check_single_tensor t : RankProg D Unit).Straight :=
  .bind (.check _ _) fun _ => .bind (.check _ _) fun _ => .bind (.check _ _) fun _ => .check _ _

theorem extract_mps_buffer_straight (t : Tensor) :
    (extract_mps_buffer t : RankProg D MPSBufferView).Straight :=
  .bind (check_single_tensor_straight t) fun _ => trivial

theorem blit_straight (dst src : Addr) (n : Nat) : (blit dst src n : RankProg D Unit).Straight :=
  .bind (.modify _) fun _ => .modify _

theorem stage_straight (t : Tensor) :
    (stage_for_send_nosync t : RankProg D StagingBuffer).Straight := by
  refine .bind (check_single_tensor_straight t) fun _ =>
    .bind (extract_mps_buffer_straight t) fun v => ?_
  split
  · trivial
  · exact .bind (.bind (.modify _) fun _ => .bind .get fun _ => trivial) fun _ =>
      .bind (blit_straight _ _ _) fun _ => trivial

/-- Where `unstage_from_recv` blits from. -/
def unstageFrom (src : Addr) (n : Nat) (s : RankState D) : Addr :=
  if src = s.aux.host.pool.ptr then src else (s.aux.host.pool.ensure n).ptr

/-- The store before that blit. -/
def unstagePool (src : Addr) (n : Nat) (s : RankState D) : RankState D :=
  if src = s.aux.host.pool.ptr then s else
    { setPool s (s.aux.host.pool.ensure n) with
      mem := copy s.mem (s.aux.host.pool.ensure n).ptr src n }

theorem pool_source_computes (src : Addr) (n : Nat) (s : RankState D) :
    Computes (pool_source src n : RankProg D Addr) s (unstagePool src n s) (unstageFrom src n s) := by
  refine (Computes.get s).bind ?_
  unfold unstageFrom unstagePool
  split
  · exact Computes.ret _ _
  · exact (ensure_computes _ _).bind ((Computes.modify _ _).bind (Computes.ret _ _))

theorem pool_source_straight (src : Addr) (n : Nat) : (pool_source src n : RankProg D Addr).Straight := by
  refine .bind .get fun s => ?_
  split
  · trivial
  · exact .bind (.bind (.modify _) fun _ => .bind .get fun _ => trivial) fun _ =>
      .bind (.modify _) fun _ => trivial

/-- The store after unstaging. -/
def unstaged (t : Tensor) (src : Addr) (s : RankState D) : RankState D :=
  if t.shared then { s with mem := copy s.mem t.addr src t.nbytes } else
    blitted t.addr (unstageFrom src t.nbytes s) t.nbytes (unstagePool src t.nbytes s)

theorem unstaged_mem (h : t.shared = true) (src : Addr) (s : RankState D) :
    (unstaged t src s).mem = copy s.mem t.addr src t.nbytes := by
  simp [unstaged, h]

theorem unstaged_aux (h : t.shared = true) (src : Addr) (s : RankState D) :
    (unstaged t src s).aux = s.aux := by
  simp [unstaged, h]

theorem unstaged_calm (t : Tensor) (src : Addr) (s : RankState D) : Calm s (unstaged t src s) := by
  unfold unstaged
  split
  · exact .of_mem _ _
  · refine .trans ?_ (blitted_calm _ _ _ _)
    unfold unstagePool
    split
    · exact .refl s
    · exact (Calm.setPool s _).trans (Calm.of_mem _ _)

theorem unstage_computes (h : t.Ok) (src : Addr) {n : Nat} (hn : n = t.nbytes) (s : RankState D) :
    Computes (unstage_from_recv t src n : RankProg D Unit) s (unstaged t src s) () := by
  subst hn
  rw [unstage_from_recv, check_single_tensor_eq h, Proc.ret_bind, Proc.check_pos rfl, Proc.ret_bind,
    extract_mps_buffer_eq h, Proc.ret_bind, h.cpu_ptr_eq]
  unfold unstaged
  cases t.shared
  · exact (pool_source_computes _ _ _).bind (blit_computes _ _ _ _)
  · exact Computes.modify _ _

theorem unstage_straight (t : Tensor) (src : Addr) (n : Nat) :
    (unstage_from_recv t src n : RankProg D Unit).Straight := by
  refine .bind (check_single_tensor_straight t) fun _ => .bind (.check _ _) fun _ =>
    .bind (extract_mps_buffer_straight t) fun v => ?_
  split
  · exact .modify _
  · exact .bind (pool_source_straight _ _) fun _ => blit_straight _ _ _

/-! ## What the tensor kernels do -/

/-- The store after encoding a command. -/
def dispatched (c : Cmd D) (s : RankState D) : RankState D := setMetal s (s.aux.metal.dispatch c)

/-- The device can reduce `t` with `op`. -/
structure Tensor.Reducible (t : Tensor) (c : KernelCache) (op : RedOpType) (f : Format)
    (k : BinaryOp) : Prop where
  supports : c.Supports t.dtype op f k
  numel_le : t.numel ≤ UINT32_MAX

theorem safe_numel_eq (h : t.numel ≤ UINT32_MAX) :
    (safe_numel t : RankProg D Nat) = .ret t.numel := by
  simp [safe_numel, h]

theorem safe_numel_straight (t : Tensor) : (safe_numel t : RankProg D Nat).Straight :=
  .bind (.check _ _) fun _ => trivial

theorem check_same_shape_dtype_straight (a b : Tensor) :
    (check_same_shape_dtype a b : RankProg D Unit).Straight :=
  .bind (.check _ _) fun _ => .check _ _

theorem metal_elementwise_straight (k : BinaryOp) (name : String) (dst src : Tensor) :
    (metal_elementwise k name dst src : RankProg D Unit).Straight := by
  refine .bind .get fun s => .bind (.check _ _) fun _ =>
    .bind (check_same_shape_dtype_straight _ _) fun _ => ?_
  split
  · trivial
  · exact .bind (extract_mps_buffer_straight _) fun _ => .bind (extract_mps_buffer_straight _) fun _ =>
      .bind (safe_numel_straight _) fun _ => .modify _

theorem metal_accumulate_chunk_straight (dst src : Tensor) :
    (metal_accumulate_chunk dst src : RankProg D Unit).Straight := by
  refine .bind .get fun s => .bind (.check _ _) fun _ =>
    .bind (check_same_shape_dtype_straight _ _) fun _ =>
    .bind (extract_mps_buffer_straight _) fun _ => .bind (extract_mps_buffer_straight _) fun _ =>
    .bind (safe_numel_straight _) fun _ => ?_
  split
  · trivial
  · exact .modify _

theorem metal_reduce_op_straight (dst src : Tensor) (op : RedOpType) :
    (metal_reduce_op dst src op : RankProg D Unit).Straight := by
  cases op with
  | SUM | AVG => exact metal_accumulate_chunk_straight _ _
  | MIN | MAX | PRODUCT => exact metal_elementwise_straight _ _ _ _
  | _ => trivial

theorem metal_scale_inplace_straight (t : Tensor) (x : D.Double) :
    (metal_scale_inplace t x : RankProg D Unit).Straight := by
  refine .bind .get fun s => .bind (.check _ _) fun _ => .bind (extract_mps_buffer_straight _) fun _ =>
    .bind (safe_numel_straight _) fun _ => ?_
  split
  · trivial
  · exact .modify _

theorem metal_reduce_op_computes {src : Tensor} {op : RedOpType} {f : Format} {k : BinaryOp}
    {s : RankState D} (h : t.Ok) (hsrc : src.Ok) (hsizes : src.sizes = t.sizes)
    (hdtype : src.dtype = t.dtype) (hred : t.Reducible s.aux.metal.cache op f k) :
    Computes (metal_reduce_op t src op : RankProg D Unit) s
      (dispatched (.binary k f t.addr src.addr t.numel) s) () := by
  have hsame : (check_same_shape_dtype t src : RankProg D Unit) = .ret () := by
    simp [check_same_shape_dtype, hsizes, hdtype]
  have hpso := select_op_pipeline_eq hred.supports
  have hkernel := hred.supports.kernel
  have hdispatch : ∀ pso : BinaryOp × Format, pso = (k, f) →
      Computes (dispatch_binary_op pso t src : RankProg D Unit) s
        (dispatched (.binary k f t.addr src.addr t.numel) s) () := by
    rintro pso rfl
    rw [dispatch_binary_op, extract_mps_buffer_eq h, extract_mps_buffer_eq hsrc,
      safe_numel_eq hred.numel_le]
    exact Computes.modify _ s
  have helementwise : ∀ op' name,
      select_elementwise_pipeline s.aux.metal.cache op' t.dtype = some (k, f) →
      Computes (metal_elementwise op' name t src : RankProg D Unit) s
        (dispatched (.binary k f t.addr src.addr t.numel) s) () := by
    intro op' name hsel
    refine (Computes.get s).bind ?_
    rw [Proc.check_pos hred.supports.initialized, Proc.ret_bind, hsame, Proc.ret_bind, hsel]
    exact hdispatch _ rfl
  have haccumulate : select_accumulate_pipeline s.aux.metal.cache t.dtype = some (k, f) →
      Computes (metal_accumulate_chunk t src : RankProg D Unit) s
        (dispatched (.binary k f t.addr src.addr t.numel) s) () := by
    intro hsel
    refine (Computes.get s).bind ?_
    rw [Proc.check_pos hred.supports.initialized, Proc.ret_bind, hsame, Proc.ret_bind,
      extract_mps_buffer_eq h, Proc.ret_bind, extract_mps_buffer_eq hsrc, Proc.ret_bind,
      safe_numel_eq hred.numel_le, Proc.ret_bind, hsel]
    exact Computes.modify _ s
  cases op with
  | SUM => exact haccumulate hpso
  | AVG => exact haccumulate hpso
  | MIN => exact helementwise .min "min" hpso
  | MAX => exact helementwise .max "max" hpso
  | PRODUCT => exact helementwise .mul "product" hpso
  | _ => simp [RedOpType.kernel] at hkernel

theorem metal_scale_inplace_computes {f : Format} {k : BinaryOp} {s : RankState D} (h : t.Ok)
    (hred : t.Reducible s.aux.metal.cache .AVG f k) (scale : D.Double) :
    Computes (metal_scale_inplace t scale : RankProg D Unit) s
      (dispatched (.scale f t.addr (tensorFactor D scale f) t.numel) s) () := by
  refine (Computes.get s).bind ?_
  rw [Proc.check_pos hred.supports.initialized, Proc.ret_bind, extract_mps_buffer_eq h,
    Proc.ret_bind, safe_numel_eq hred.numel_le, Proc.ret_bind,
    select_scale_pipeline_eq hred.supports rfl]
  exact Computes.modify _ s

/-! ## A small device

    Bytes as values, each byte of which is the value itself. -/

def byteDevice : Device UInt8 where
  F := fun _ => UInt8
  codec := fun f =>
    { size := f.size
      size_pos := f.size_pos
      enc := fun x _ => x
      dec := fun b => b ⟨0, f.size_pos⟩
      dec_enc := fun _ => rfl }
  codec_size := fun _ => rfl
  apply := fun op _ x y =>
    match op with
    | .add => x + y
    | .min => min x y
    | .max => max x y
    | .mul => x * y
  Double := UInt8
  recip := UInt8.ofNat
  toF32 := id
  toF16 := id
  roundBF16 := id
  truncBF16 := id
  widenBF16 := id

/-- A rank before its first operation, with all kernels; all its bytes are
    `r`. -/
def freshState (r : Nat) : RankState byteDevice where
  mem := fun _ => UInt8.ofNat r
  aux := ⟨⟨⟨true, fun _ _ => true, fun _ => true⟩, none, [], []⟩, ⟨⟨0, 0⟩, []⟩⟩
  tag := 0

/-- The first `n` elements of the user's buffer `id`. -/
def userTensor (dtype : ScalarType) (id n : Nat) : Tensor := ⟨.MPS, dtype, [n], true, .mtl id, 0, true⟩

end Mccl
