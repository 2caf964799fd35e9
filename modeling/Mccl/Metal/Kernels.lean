import Mccl.Framework.Arrays
import Mccl.Framework.Collective

/-! # Metal Kernels

    Model of `metal/MetalKernels.mm`: the reduction kernels, the process-wide
    kernel cache with its optional open batch, and the command queue.

    * **Arithmetic** (`Device`): the values of the three float formats, their
      layout in bytes, and the element-wise operations of the shaders. Nothing
      is assumed about them.
    * **Commands** (`Cmd`): an encoded kernel. It acts on memory when its
      command buffer is executed; the model executes committed buffers at the
      next `mccl_queue_drain`, which is the latest moment the hardware can
      choose.
    * **Batches**: while `batch_cmd` is open every kernel is appended to it,
      and nothing is committed. -/

namespace Mccl

open ForkJoin Arrays

/-! ## Element types and operations -/

/-- `at::ScalarType`. The complex types stand for those that no collective
    admits. -/
inductive ScalarType where
  | Float | Half | BFloat16 | Double | Long | Int | Short | Char | Byte | Bool
  | ComplexHalf | ComplexFloat | ComplexDouble
  deriving DecidableEq, Repr

/-- `at::elementSize`. -/
def ScalarType.elementSize : ScalarType → Nat
  | .Float | .Int | .ComplexHalf => 4
  | .Half | .BFloat16 | .Short => 2
  | .Double | .Long | .ComplexFloat => 8
  | .Char | .Byte | .Bool => 1
  | .ComplexDouble => 16

/-- `at::toString`. -/
def ScalarType.toString : ScalarType → String
  | .Float => "Float"
  | .Half => "Half"
  | .BFloat16 => "BFloat16"
  | .Double => "Double"
  | .Long => "Long"
  | .Int => "Int"
  | .Short => "Short"
  | .Char => "Char"
  | .Byte => "Byte"
  | .Bool => "Bool"
  | .ComplexHalf => "ComplexHalf"
  | .ComplexFloat => "ComplexFloat"
  | .ComplexDouble => "ComplexDouble"

/-- `c10d::ReduceOp::RedOpType`, in the order of its numeric values. -/
inductive RedOpType where
  | SUM | AVG | PRODUCT | MIN | MAX | BAND | BOR | BXOR | PREMUL_SUM | UNUSED
  deriving DecidableEq, Repr

def RedOpType.toNat : RedOpType → Nat
  | .SUM => 0
  | .AVG => 1
  | .PRODUCT => 2
  | .MIN => 3
  | .MAX => 4
  | .BAND => 5
  | .BOR => 6
  | .BXOR => 7
  | .PREMUL_SUM => 8
  | .UNUSED => 9

/-- The float formats that there are kernels for. -/
inductive Format where
  | f32 | f16 | bf16
  deriving DecidableEq, Repr

def Format.size : Format → Nat
  | .f32 => 4
  | .f16 => 2
  | .bf16 => 2

theorem Format.size_pos (f : Format) : 0 < f.size := by
  cases f <;> decide

/-- `kOpAdd`, `kOpMin`, `kOpMax` and `kOpMul` of the shaders. -/
inductive BinaryOp where
  | add | min | max | mul
  deriving DecidableEq, Repr

/-- The arithmetic of the device, over bytes `β`. -/
structure Device (β : Type) where
  /-- The values of a format. -/
  F : Format → Type
  codec : (f : Format) → Codec (F f) β
  codec_size : ∀ f, (codec f).size = f.size
  apply : BinaryOp → (f : Format) → F f → F f → F f
  /-- The host's `double`. -/
  Double : Type
  /-- `1.0 / static_cast<double>(world)`. -/
  recip : Nat → Double
  toF32 : Double → F .f32
  toF16 : Double → F .f16
  /-- The conversion of `c10::BFloat16`. -/
  roundBF16 : F .f32 → F .bf16
  /-- The upper half of the bit pattern. -/
  truncBF16 : F .f32 → F .bf16
  widenBF16 : F .bf16 → F .f32

/-! ## Memory -/

/-- Where bytes live. -/
inductive Buf where
  /-- Storage of the user's tensors. -/
  | mtl (id : Nat)
  /-- Metal buffers that a collective allocates for itself. -/
  | tmp (i : Nat)
  /-- Metal buffers that an allreduce allocates for itself. -/
  | scratch (i : Nat)
  /-- Heap buffers of a collective. -/
  | host (i : Nat)
  /-- The staging pool, a new buffer whenever it grows. -/
  | pool (gen : Nat)
  deriving DecidableEq, Repr

abbrev Addr := Buf × Nat

/-- A range of a Metal buffer. With shared storage `cpu_ptr` aliases the
    bytes that the kernels see. -/
structure MPSBufferView where
  mtl_buffer : Buf
  byte_offset : Nat
  nbytes : Nat
  cpu_accessible : Bool
  deriving DecidableEq, Repr

def MPSBufferView.addr (v : MPSBufferView) : Addr := (v.mtl_buffer, v.byte_offset)

/-- Null unless the storage is shared. -/
def MPSBufferView.cpu_ptr (v : MPSBufferView) : Option Addr :=
  if v.cpu_accessible then some v.addr else none

/-! ## Commands -/

variable {β : Type}

/-- A kernel with its arguments, as encoded into a command buffer. -/
inductive Cmd (D : Device β) where
  | binary (op : BinaryOp) (f : Format) (dst src : Addr) (count : Nat)
  | scale (f : Format) (buf : Addr) (factor : D.F f) (count : Nat)

variable {D : Device β}

/-- `dst[i] = op(dst[i], src[i])`, or `buf[i] *= factor`, for `i < count`. -/
def Cmd.exec : Cmd D → (Addr → β) → Addr → β
  | .binary op f dst src count, m =>
    store (D.codec f) m dst count fun i =>
      D.apply op f (elem (D.codec f) m dst i) (elem (D.codec f) m src i)
  | .scale f buf factor count, m =>
    store (D.codec f) m buf count fun i => D.apply .mul f (elem (D.codec f) m buf i) factor

/-- Where the command writes. -/
def Cmd.dst : Cmd D → Addr
  | .binary _ _ dst _ _ => dst
  | .scale _ buf _ _ => buf

theorem Cmd.exec_of_ne {c : Cmd D} {m : Addr → β} {x : Addr} (h : x.1 ≠ c.dst.1) :
    c.exec m x = m x := by
  cases c with
  | binary op f dst src count =>
    rw [Cmd.exec]
    exact store_of_ne h
  | scale f buf factor count =>
    rw [Cmd.exec]
    exact store_of_ne h

theorem Cmd.elem_binary (op : BinaryOp) (f : Format) (dst src : Addr) {count i : Nat}
    (m : Addr → β) (hi : i < count) :
    elem (D.codec f) ((Cmd.binary op f dst src count : Cmd D).exec m) dst i =
      D.apply op f (elem (D.codec f) m dst i) (elem (D.codec f) m src i) := by
  rw [Cmd.exec, elem_store hi]

theorem Cmd.elem_scale (f : Format) (buf : Addr) (x : D.F f) {count i : Nat} (m : Addr → β)
    (hi : i < count) :
    elem (D.codec f) ((Cmd.scale f buf x count : Cmd D).exec m) buf i =
      D.apply .mul f (elem (D.codec f) m buf i) x := by
  rw [Cmd.exec, elem_store hi]

def execAll (cs : List (Cmd D)) (m : Addr → β) : Addr → β := cs.foldl (fun m c => c.exec m) m

theorem execAll_frame {cs : List (Cmd D)} {a : Addr} (h : ∀ c ∈ cs, ∀ m, c.exec m a = m a)
    (m : Addr → β) : execAll cs m a = m a := by
  induction cs generalizing m with
  | nil => rfl
  | cons c cs ih =>
    have hrest := ih (fun c' hc' => h c' (by simp [hc'])) (c.exec m)
    exact hrest.trans (h c (by simp) m)

/-- Which pipelines were created. The `f32` and `f16` ones always are, the
    `bf16` ones only where the device has them. -/
structure KernelCache where
  initialized : Bool
  binary : BinaryOp → Format → Bool
  scale : Format → Bool

structure Metal (D : Device β) where
  cache : KernelCache
  /-- The open batch, if any. -/
  batch_cmd : Option (List (Cmd D))
  /-- Committed command buffers that have not been executed. -/
  committed : List (List (Cmd D))
  /-- The commands executed so far (ghost). -/
  executed : List (Cmd D)

/-- `acquire_command_buffer`, encoding, `finish_command_buffer`: the command
    joins the open batch, or is committed in a buffer of its own. -/
def Metal.dispatch (m : Metal D) (c : Cmd D) : Metal D :=
  match m.batch_cmd with
  | some cs => { m with batch_cmd := some (cs ++ [c]) }
  | none => { m with committed := m.committed ++ [[c]] }

/-- The local state of a rank besides its memory. -/
structure Local (D : Device β) (ω : Type) where
  metal : Metal D
  host : ω

abbrev RankStore (D : Device β) (ω : Type) := Store Addr β (Local D ω)

/-- A program of one rank. -/
abbrev Prog (D : Device β) (ω α : Type) := Proc Nat Addr β (Local D ω) α

variable {ω : Type}

def setMetal (s : RankStore D ω) (m : Metal D) : RankStore D ω :=
  { s with aux := { s.aux with metal := m } }

/-- Execute what has been committed, in order. -/
def drain (s : RankStore D ω) : RankStore D ω :=
  let cs := s.aux.metal.committed.flatten
  { setMetal s { s.aux.metal with committed := [], executed := s.aux.metal.executed ++ cs } with
    mem := execAll cs s.mem }

variable {s : RankStore D ω} {dtype : ScalarType} {f : Format} {op : RedOpType} {k : BinaryOp}

theorem drain_mem (h : s.aux.metal.committed = []) : (drain s).mem = s.mem := by
  simp [drain, h, execAll]

/-- Commit an empty command buffer and wait for it. -/
def mccl_queue_drain : Prog D ω Unit := .modify drain

def dispatch (c : Cmd D) : Prog D ω Unit := .modify fun s => setMetal s (s.aux.metal.dispatch c)

/-! ## Pipelines -/

/-- The pipeline, unless it is nil. -/
def KernelCache.pso (c : KernelCache) (op : BinaryOp) (f : Format) : Option (BinaryOp × Format) :=
  if c.binary op f then some (op, f) else none

def select_accumulate_pipeline (c : KernelCache) : ScalarType → Option (BinaryOp × Format)
  | .Float => c.pso .add .f32
  | .Half => c.pso .add .f16
  | .BFloat16 => c.pso .add .bf16
  | _ => none

def select_scale_pipeline (c : KernelCache) : ScalarType → Option Format
  | .Float => if c.scale .f32 then some .f32 else none
  | .Half => if c.scale .f16 then some .f16 else none
  | .BFloat16 => if c.scale .bf16 then some .bf16 else none
  | _ => none

/-- Unlike for sums, every type that is not `Float` or `Half` gets the
    `bf16` pipeline. -/
def select_elementwise_pipeline (c : KernelCache) (op : BinaryOp) :
    ScalarType → Option (BinaryOp × Format)
  | .Float => c.pso op .f32
  | .Half => c.pso op .f16
  | _ => c.pso op .bf16

def select_op_pipeline (c : KernelCache) (dtype : ScalarType) :
    RedOpType → Option (BinaryOp × Format)
  | .SUM | .AVG => select_accumulate_pipeline c dtype
  | .MIN => select_elementwise_pipeline c .min dtype
  | .MAX => select_elementwise_pipeline c .max dtype
  | .PRODUCT => select_elementwise_pipeline c .mul dtype
  | _ => none

/-! ## Batches -/

/-- The state with an empty batch open. -/
def begun (s : RankStore D ω) : RankStore D ω := setMetal s { s.aux.metal with batch_cmd := some [] }

/-- The state after closing the batch. -/
def ended (s : RankStore D ω) : RankStore D ω :=
  match s.aux.metal.batch_cmd with
  | none => s
  | some cs =>
    setMetal s { s.aux.metal with batch_cmd := none, committed := s.aux.metal.committed ++ [cs] }

def metal_begin_batch : Prog D ω Unit := do
  let s ← .get
  .check s.aux.metal.cache.initialized "metal_kernels_init() not called"
  .check (s.aux.metal.batch_cmd.isNone) "Metal batch already active"
  .modify begun

/-- Commit the batch, if there is one. -/
def metal_end_batch : Prog D ω Unit := .modify ended

/-! ## Kernels on buffer views -/

def metal_reduce_op_view (dst src : MPSBufferView) (dtype : ScalarType) (count : Nat)
    (op : RedOpType) : Prog D ω Unit := do
  let s ← .get
  .check s.aux.metal.cache.initialized "metal_kernels_init() not called"
  match select_op_pipeline s.aux.metal.cache dtype op with
  | none => .raise ("No Metal pipeline for dtype " ++ dtype.toString)
  | some (k, f) =>
    dispatch (.binary k f dst.addr src.addr count)
    -- The next algorithm step reads `dst` over the wire.
    mccl_queue_drain

/-- The factor as `metal_scale_inplace_view` passes it: bfloat16 takes the
    upper half of the float. -/
def Device.viewFactor (D : Device β) (x : D.Double) : (f : Format) → D.F f
  | .f16 => D.toF16 x
  | .bf16 => D.truncBF16 (D.toF32 x)
  | .f32 => D.toF32 x

def metal_scale_inplace_view (buf : MPSBufferView) (dtype : ScalarType) (count : Nat)
    (scale : D.Double) : Prog D ω Unit := do
  let s ← .get
  .check s.aux.metal.cache.initialized "metal_kernels_init() not called"
  match select_scale_pipeline s.aux.metal.cache dtype with
  | none => .raise ("No Metal scale pipeline for dtype " ++ dtype.toString)
  | some f =>
    dispatch (.scale f buf.addr (D.viewFactor scale f) count)
    mccl_queue_drain

/-! ## What the kernels compute -/

/-- The format of a type that has kernels. -/
def ScalarType.format : ScalarType → Option Format
  | .Float => some .f32
  | .Half => some .f16
  | .BFloat16 => some .bf16
  | _ => none

/-- The shader operation of a reduction; averages are scaled afterwards. -/
def RedOpType.kernel : RedOpType → Option BinaryOp
  | .SUM | .AVG => some .add
  | .MIN => some .min
  | .MAX => some .max
  | .PRODUCT => some .mul
  | _ => none

/-- The device can reduce elements of type `dtype`, which have format `f`,
    with `op`, whose kernel is `k`. -/
structure KernelCache.Supports (c : KernelCache) (dtype : ScalarType) (op : RedOpType)
    (f : Format) (k : BinaryOp) : Prop where
  initialized : c.initialized = true
  format : dtype.format = some f
  kernel : op.kernel = some k
  binary : c.binary k f = true
  scale : op = .AVG → c.scale f = true

/-- No batch is open and nothing waits for execution. -/
structure Metal.Idle (m : Metal D) : Prop where
  batch : m.batch_cmd = none
  committed : m.committed = []

/-- The command `c` has been executed. -/
def execCmd (s : RankStore D ω) (c : Cmd D) : RankStore D ω :=
  { setMetal s { s.aux.metal with executed := s.aux.metal.executed ++ [c] } with mem := c.exec s.mem }

@[simp] theorem execCmd_mem (s : RankStore D ω) (c : Cmd D) : (execCmd s c).mem = c.exec s.mem := rfl
@[simp] theorem execCmd_tag (s : RankStore D ω) (c : Cmd D) : (execCmd s c).tag = s.tag := rfl
@[simp] theorem execCmd_cache (s : RankStore D ω) (c : Cmd D) :
    (execCmd s c).aux.metal.cache = s.aux.metal.cache := rfl

theorem execCmd_idle (h : s.aux.metal.Idle) (c : Cmd D) :
    (execCmd s c).aux.metal.Idle := ⟨h.batch, h.committed⟩

theorem format_size (h : dtype.format = some f) :
    f.size = dtype.elementSize := by
  cases dtype <;> simp [ScalarType.format] at h <;> subst h <;> rfl

theorem select_op_pipeline_eq {c : KernelCache}
    (h : c.Supports dtype op f k) : select_op_pipeline c dtype op = some (k, f) := by
  have hpso : c.pso k f = some (k, f) := if_pos h.binary
  have hf := h.format
  have hk := h.kernel
  cases op <;> cases dtype <;> simp_all [RedOpType.kernel, ScalarType.format] <;>
    obtain ⟨rfl⟩ := hk <;> obtain ⟨rfl⟩ := hf <;> exact hpso

theorem select_scale_pipeline_eq {c : KernelCache} (h : c.Supports dtype op f k) (hop : op = .AVG) :
    select_scale_pipeline c dtype = some f := by
  have hs := h.scale hop
  have hf := h.format
  cases dtype <;> simp [ScalarType.format] at hf <;> subst hf <;> simp [select_scale_pipeline, hs]

theorem dispatch_drain (h : s.aux.metal.Idle) (c : Cmd D) :
    drain (setMetal s (s.aux.metal.dispatch c)) = execCmd s c := by
  have hb := h.batch
  have hc := h.committed
  simp [drain, execCmd, setMetal, Metal.dispatch, execAll, hb, hc]

theorem dispatch_computes (h : s.aux.metal.Idle) (c : Cmd D) :
    Computes (do dispatch c; mccl_queue_drain : Prog D ω Unit) s (execCmd s c) () := by
  rw [← dispatch_drain h]
  exact (Computes.modify (fun s => setMetal s (s.aux.metal.dispatch c)) s).bind
    (Computes.modify drain _)

theorem metal_reduce_op_view_computes
    (hidle : s.aux.metal.Idle) (hsup : s.aux.metal.cache.Supports dtype op f k)
    (dst src : MPSBufferView) (count : Nat) :
    Computes (metal_reduce_op_view dst src dtype count op : Prog D ω Unit) s
      (execCmd s (.binary k f dst.addr src.addr count)) () := by
  refine (Computes.get s).bind ?_
  rw [Proc.check_pos hsup.initialized, Proc.ret_bind, select_op_pipeline_eq hsup]
  exact dispatch_computes hidle _

theorem metal_scale_inplace_view_computes (hidle : s.aux.metal.Idle)
    (hsup : s.aux.metal.cache.Supports dtype .AVG f k) (buf : MPSBufferView) (count : Nat)
    (scale : D.Double) :
    Computes (metal_scale_inplace_view buf dtype count scale : Prog D ω Unit) s
      (execCmd s (.scale f buf.addr (D.viewFactor scale f) count)) () := by
  refine (Computes.get s).bind ?_
  rw [Proc.check_pos hsup.initialized, Proc.ret_bind, select_scale_pipeline_eq hsup rfl]
  exact dispatch_computes hidle _

theorem metal_begin_batch_computes (hinit : s.aux.metal.cache.initialized = true)
    (hbatch : s.aux.metal.batch_cmd = none) :
    Computes (metal_begin_batch : Prog D ω Unit) s (begun s) () := by
  refine (Computes.get s).bind ?_
  rw [Proc.check_pos hinit, Proc.ret_bind, Proc.check_pos (by simp [hbatch]), Proc.ret_bind]
  exact Computes.modify _ s

theorem metal_end_batch_computes (s : RankStore D ω) :
    Computes (metal_end_batch : Prog D ω Unit) s (ended s) () := Computes.modify ended s

theorem metal_begin_batch_straight : (metal_begin_batch : Prog D ω Unit).Straight :=
  .bind .get fun _ => .bind (.check _ _) fun _ => .bind (.check _ _) fun _ => .modify _

theorem metal_reduce_op_view_straight (dst src : MPSBufferView) (dtype : ScalarType) (count : Nat)
    (op : RedOpType) : (metal_reduce_op_view dst src dtype count op : Prog D ω Unit).Straight := by
  refine .bind .get fun s => .bind (.check _ _) fun _ => ?_
  split
  · trivial
  · exact .bind (.modify _) fun _ => .modify _

theorem metal_scale_inplace_view_straight (buf : MPSBufferView) (dtype : ScalarType) (count : Nat)
    (scale : D.Double) :
    (metal_scale_inplace_view buf dtype count scale : Prog D ω Unit).Straight := by
  refine .bind .get fun s => .bind (.check _ _) fun _ => ?_
  split
  · trivial
  · exact .bind (.modify _) fun _ => .modify _

end Mccl
