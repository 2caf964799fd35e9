import Mccl.Framework.Threads
import Mccl.Metal.Kernels

/-! # Shaders

    Model of `metal/shaders.metal`: the vectorised kernels, thread by thread.
    A thread handles eight elements, with vector accesses where the buffers
    are aligned, with scalar ones where they are not, and in a loop where
    fewer than eight are left. Threads interleave access by access, a vector
    access lane by lane.

    * **Index arithmetic** is that of `uint`: the end of a thread's block is
      computed modulo `2 ^ 32`.
    * `kernel_ends`: every interleaving ends, and has changed the elements
      before `written count`.
    * `binary_kernel_exec`, `scale_kernel_exec`: a dispatched kernel does what
      the command of the kernel model does. -/

namespace Mccl

open Threads Arrays Function

namespace Shaders

/-! ## Thread programs -/

/-- A value of type `uint`. -/
def uint (n : Nat) : Nat := n % 2 ^ 32

def kElementsPerThread : Nat := 8

/-- An element of one of the two buffers. -/
inductive Elem where
  | dst (i : Nat)
  | src (i : Nat)
  deriving DecidableEq, Repr

/-- The registers `d0`, `d1` and `s0`, `s1`, lane by lane. -/
structure Lanes (α : Type) where
  d : Nat → α
  s : Nat → α

variable {α : Type}

abbrev LaneAccess (α : Type) := Access Elem α (Lanes α)

def loadDst (lane i : Nat) : LaneAccess α :=
  ⟨.dst i, fun r x => ({ r with d := Function.update r.d lane x }, x)⟩

def loadSrc (lane i : Nat) : LaneAccess α :=
  ⟨.src i, fun r x => ({ r with s := Function.update r.s lane x }, x)⟩

/-- Store `v d s` for the values `d` and `s` of the lane. -/
def storeDst (v : α → α → α) (lane i : Nat) : LaneAccess α :=
  ⟨.dst i, fun r _ => (r, v (r.d lane) (r.s lane))⟩

/-- `load2` and `store2`: two vectors of four lanes. -/
def load2 (access : Nat → Nat → LaneAccess α) (vec_index : Nat) : List (LaneAccess α) :=
  (List.range 4).map (fun l => access l (4 * vec_index + l)) ++
    (List.range 4).map (fun l => access (4 + l) (4 * uint (vec_index + 1) + l))

/-- `load2_scalar`, and the eight stores that go with it. -/
def load2_scalar (access : Nat → Nat → LaneAccess α) (base : Nat) : List (LaneAccess α) :=
  (List.range 8).map fun k => access k (uint (base + k))

/-- The accesses to one element of a tail. -/
def tail_element (reads : Bool) (v : α → α → α) (i : Nat) : List (LaneAccess α) :=
  loadDst 0 i :: (if reads then [loadSrc 0 i] else []) ++ [storeDst v 0 i]

/-- The loop from `base` to `min(base + kElementsPerThread, count)` of
    `apply_binary_tail` and `scale_tail`. -/
def tail (reads : Bool) (v : α → α → α) (base count : Nat) : List (LaneAccess α) :=
  (List.range' base (min (uint (base + kElementsPerThread)) count - base)).flatMap
    (tail_element reads v)

/-- The body of a vectorised kernel. `reads` says whether it has a `src`
    buffer, and `v` what it stores. -/
def vec_op (reads : Bool) (v : α → α → α) (base : Nat) (aligned : Bool) (count gid : Nat) :
    List (LaneAccess α) :=
  if uint (base + kElementsPerThread) ≤ count then
    if aligned then
      let vec_index := uint (gid * 2)
      load2 loadDst vec_index ++ (if reads then load2 loadSrc vec_index else []) ++
        load2 (storeDst v) vec_index
    else
      load2_scalar loadDst base ++ (if reads then load2_scalar loadSrc base else []) ++
        load2_scalar (storeDst v) base
  else
    tail reads v base count

/-- `binary_vec_op<Op, T, VecT>`, where `op` is the operation `Op` on `T`. -/
def binary_vec_op (op : α → α → α) (base : Nat) (aligned : Bool) (count gid : Nat) :
    List (LaneAccess α) :=
  vec_op true op base aligned count gid

/-- `accumulate_chunk_*`, `elementwise_min_*`, `elementwise_max_*` and
    `elementwise_product_*`: thread `gid`. -/
def binary_thread (op : α → α → α) (aligned : Bool) (count gid : Nat) : List (LaneAccess α) :=
  binary_vec_op op (uint (gid * kElementsPerThread)) aligned count gid

/-- `scale_inplace_*`: thread `gid`. -/
def scale_thread (mul : α → α → α) (scale : α) (aligned : Bool) (count gid : Nat) :
    List (LaneAccess α) :=
  vec_op false (fun b _ => mul b scale) (uint (gid * kElementsPerThread)) aligned count gid

/-! ## Dispatch -/

/-- What a pipeline state says about itself. -/
structure PipelineState where
  threadExecutionWidth : Nat
  maxTotalThreadsPerThreadgroup : Nat

structure DispatchParams where
  grid_width : Nat
  threadgroup_width : Nat

def compute_dispatch (pso : PipelineState) (element_count : Nat) : DispatchParams :=
  let simd := pso.threadExecutionWidth
  let tg := pso.maxTotalThreadsPerThreadgroup / simd * simd
  { grid_width := (element_count + 7) / 8
    threadgroup_width := if tg = 0 then simd else tg }

/-- The contents of the two buffers. -/
def buffers (dst src : Nat → α) : Elem → α
  | .dst i => dst i
  | .src i => src i

section kernels

variable (pso : PipelineState) (aligned : Bool) (count : Nat) (r₀ : Lanes α) (dst src : Nat → α)

/-- `dispatchThreads` with a program per thread. The registers hold anything
    at first. -/
def dispatchThreads (thread : Nat → List (LaneAccess α)) : System (State Elem α (Lanes α)) Nat :=
  system (compute_dispatch pso count).grid_width thread r₀ (buffers dst src)

def binary_kernel (op : α → α → α) : System (State Elem α (Lanes α)) Nat :=
  dispatchThreads pso count r₀ dst src (binary_thread op aligned count)

/-- A kernel without a second buffer: `src` is never read. -/
def scale_kernel (mul : α → α → α) (scale : α) : System (State Elem α (Lanes α)) Nat :=
  dispatchThreads pso count r₀ dst src (scale_thread mul scale aligned count)

end kernels

/-! ## One thread -/

/-- The memory after applying `v` to `len` elements from `base` on. -/
def applied (v : α → α → α) (m : Elem → α) (base len : Nat) : Elem → α
  | .dst i => if base ≤ i ∧ i < base + len then v (m (.dst i)) (m (.src i)) else m (.dst i)
  | .src i => m (.src i)

theorem applied_zero (v : α → α → α) (m : Elem → α) (base : Nat) : applied v m base 0 = m := by
  funext x
  cases x with
  | dst i =>
    apply if_neg
    omega
  | src i => rfl

theorem applied_succ (v : α → α → α) (m : Elem → α) (base len : Nat) :
    applied v m base (len + 1) =
      update (applied v m base len) (.dst (base + len))
        (v (m (.dst (base + len))) (m (.src (base + len)))) := by
  funext x
  cases x with
  | src i => rw [update_of_ne (by simp)]; rfl
  | dst i =>
    by_cases hi : i = base + len
    · rw [hi, update_self]
      apply if_pos
      omega
    · rw [update_of_ne (by simpa using hi)]
      have hiff : (base ≤ i ∧ i < base + (len + 1)) ↔ (base ≤ i ∧ i < base + len) := by omega
      simp only [applied, hiff]

theorem update_lane (x y : Nat → α) (n : Nat) :
    update (fun k => if k < n then x k else y k) n (x n) = fun k => if k < n + 1 then x k else y k := by
  funext k
  by_cases hk : k = n
  · subst hk
    simp
  · rw [update_of_ne hk]
    have hiff : k < n + 1 ↔ k < n := by omega
    simp only [hiff]

theorem alone_loadDst (m : Elem → α) (r : Lanes α) (base n : Nat) :
    alone m r ((List.range n).map fun k => loadDst k (base + k)) =
      (m, { r with d := fun k => if k < n then m (.dst (base + k)) else r.d k }) := by
  induction n with
  | zero => simp [alone]
  | succ n ih =>
    rw [List.range_succ, List.map_append, alone_append, ih]
    simp only [List.map_cons, List.map_nil, alone, loadDst, update_eq_self]
    congr 2
    exact update_lane ..

theorem alone_loadSrc (m : Elem → α) (r : Lanes α) (base n : Nat) :
    alone m r ((List.range n).map fun k => loadSrc k (base + k)) =
      (m, { r with s := fun k => if k < n then m (.src (base + k)) else r.s k }) := by
  induction n with
  | zero => simp [alone]
  | succ n ih =>
    rw [List.range_succ, List.map_append, alone_append, ih]
    simp only [List.map_cons, List.map_nil, alone, loadSrc, update_eq_self]
    congr 2
    exact update_lane ..

variable {v : α → α → α} {reads : Bool} {gid : Nat} {a : LaneAccess α} {s : State Elem α (Lanes α)}

theorem alone_storeDst {m : Elem → α} {r : Lanes α} {base n : Nat}
    (hr : ∀ k < n, v (r.d k) (r.s k) = v (m (.dst (base + k))) (m (.src (base + k)))) :
    alone m r ((List.range n).map fun k => storeDst v k (base + k)) = (applied v m base n, r) := by
  induction n with
  | zero => simp [alone, applied_zero]
  | succ n ih =>
    rw [List.range_succ, List.map_append, alone_append, ih fun k hk => hr k (by omega)]
    simp only [List.map_cons, List.map_nil, alone, storeDst]
    rw [hr n (by omega), applied_succ]

/-- A kernel that does not read `src` does not use what it would find there. -/
def Uses (reads : Bool) (v : α → α → α) : Prop := reads = true ∨ ∀ d s s', v d s = v d s'

/-- The eight elements from `base` on, in either way of accessing them. -/
def block (reads : Bool) (v : α → α → α) (base : Nat) : List (LaneAccess α) :=
  (List.range 8).map (fun k => loadDst k (base + k)) ++
    (if reads then (List.range 8).map (fun k => loadSrc k (base + k)) else []) ++
    (List.range 8).map (fun k => storeDst v k (base + k))

theorem alone_block (hv : Uses reads v) (m : Elem → α)
    (r : Lanes α) (base : Nat) : (alone m r (block reads v base)).1 = applied v m base 8 := by
  unfold block
  rw [alone_append, alone_append, alone_loadDst]
  cases reads with
  | true =>
    simp only [if_true]
    rw [alone_loadSrc, alone_storeDst]
    intro k hk
    simp only [if_pos hk]
  | false =>
    -- the lanes of `s` hold anything
    have hv' : ∀ d s s', v d s = v d s' := hv.resolve_left Bool.false_ne_true
    simp only [Bool.false_eq_true, if_false, alone]
    rw [alone_storeDst]
    intro k hk
    simp only [if_pos hk]
    exact hv' _ _ _

theorem alone_tail_element (hv : Uses reads v) (m : Elem → α) (r : Lanes α) (i : Nat) :
    (alone m r (tail_element reads v i)).1 =
      update m (.dst i) (v (m (.dst i)) (m (.src i))) := by
  cases reads with
  | true => simp [tail_element, alone, loadDst, loadSrc, storeDst]
  | false =>
    have hv' : ∀ d s s', v d s = v d s' := hv.resolve_left Bool.false_ne_true
    simp only [tail_element, alone, loadDst, storeDst, Bool.false_eq_true, if_false, List.cons_append,
      List.nil_append, update_eq_self, update_self]
    rw [hv' _ _ (m (.src i))]

theorem alone_tail_elements (hv : Uses reads v) (m : Elem → α) (r : Lanes α) (base len : Nat) :
    (alone m r ((List.range' base len).flatMap (tail_element reads v))).1 = applied v m base len := by
  induction len generalizing r with
  | zero => exact (applied_zero v m base).symm
  | succ len ih =>
    rw [List.range'_concat, List.flatMap_append, alone_append, List.flatMap_singleton,
      alone_tail_element hv, ih, Nat.one_mul, applied_succ]
    -- the new element has not been touched before
    have hdst : applied v m base len (.dst (base + len)) = m (.dst (base + len)) := if_neg (by omega)
    rw [hdst]
    rfl

/-! ## Index arithmetic -/

/-- The elements that the threads of a dispatch for `count` elements write:
    the last block of a `count` above `2 ^ 32 - 8` is taken to be full. -/
def written (count : Nat) : Nat := if 2 ^ 32 - 8 < count then 2 ^ 32 else count

theorem load2_eq (h : gid < 2 ^ 29) (access : Nat → Nat → LaneAccess α) :
    load2 access (uint (gid * 2)) = (List.range 8).map fun k => access k (8 * gid + k) := by
  have hvec : uint (gid * 2) = gid * 2 := Nat.mod_eq_of_lt (by omega)
  have hnext : uint (gid * 2 + 1) = gid * 2 + 1 := Nat.mod_eq_of_lt (by omega)
  have hlo : ∀ l, 4 * (gid * 2) + l = 8 * gid + l := by intro l; omega
  have hhi : ∀ l, 4 * (gid * 2 + 1) + l = 8 * gid + (4 + l) := by intro l; omega
  unfold load2
  rw [hvec, hnext]
  simp only [hlo, hhi]
  rfl

theorem load2_scalar_eq (h : gid < 2 ^ 29) (access : Nat → Nat → LaneAccess α) :
    load2_scalar access (8 * gid) = (List.range 8).map fun k => access k (8 * gid + k) := by
  apply List.map_congr_left
  intro k hk
  have hk8 : k < 8 := List.mem_range.mp hk
  have huint : uint (8 * gid + k) = 8 * gid + k := Nat.mod_eq_of_lt (by omega)
  rw [huint]

theorem vec_op_eq (h : gid < 2 ^ 29) (reads : Bool) (v : α → α → α) (aligned : Bool) (count : Nat) :
    vec_op reads v (uint (gid * kElementsPerThread)) aligned count gid =
      if uint (8 * gid + 8) ≤ count then block reads v (8 * gid)
      else tail reads v (8 * gid) count := by
  have hbase : uint (gid * kElementsPerThread) = 8 * gid := by
    unfold uint kElementsPerThread
    omega
  unfold vec_op block
  rw [hbase]
  simp only [load2_eq h, load2_scalar_eq h, ite_self]
  rfl

theorem alone_vec_op (hv : Uses reads v) {count : Nat}
    (hcount : count < 2 ^ 32) (hgid : gid < (count + 7) / 8) (aligned : Bool) (m : Elem → α)
    (r : Lanes α) :
    (alone m r (vec_op reads v (uint (gid * kElementsPerThread)) aligned count gid)).1 =
      applied v m (8 * gid) (min 8 (written count - 8 * gid)) := by
  rw [vec_op_eq (by omega)]
  by_cases hlast : 8 * gid + 8 = 2 ^ 32
  · -- the end of the block wraps to zero
    have hend : uint (8 * gid + 8) = 0 := by rw [hlast]; rfl
    have hlen : min 8 (written count - 8 * gid) = 8 := by
      unfold written
      rw [if_pos (by omega)]
      omega
    rw [hend, if_pos (Nat.zero_le _), hlen, alone_block hv]
  · have hend : uint (8 * gid + 8) = 8 * gid + 8 := Nat.mod_eq_of_lt (by omega)
    rw [hend]
    have hwritten : ¬2 ^ 32 - 8 < count ∨ 8 * gid + 8 ≤ 2 ^ 32 - 8 := by omega
    split
    · have hlen : min 8 (written count - 8 * gid) = 8 := by
        unfold written
        split <;> omega
      rw [hlen, alone_block hv]
    · have hlen : min (8 * gid + 8) count - 8 * gid = min 8 (written count - 8 * gid) := by
        unfold written
        split <;> omega
      rw [tail, kElementsPerThread, hend, hlen, alone_tail_elements hv]

/-- Where the thread `gid` accesses memory: in its block. -/
def InBlock (gid : Nat) : Elem → Prop
  | .dst i => i / 8 = gid
  | .src i => i / 8 = gid

theorem mem_block (ha : a ∈ block reads v (8 * gid)) : InBlock gid a.addr := by
  have hin : ∀ k < 8, (8 * gid + k) / 8 = gid := by intro k hk; omega
  cases reads <;>
    simp only [block, List.mem_append, List.mem_map, List.mem_range, Bool.false_eq_true, if_false,
      if_true, List.not_mem_nil, or_false] at ha
  · rcases ha with ⟨k, hk, rfl⟩ | ⟨k, hk, rfl⟩ <;> exact hin k hk
  · rcases ha with (⟨k, hk, rfl⟩ | ⟨k, hk, rfl⟩) | ⟨k, hk, rfl⟩ <;> exact hin k hk

theorem mem_tail_element {i : Nat}
    (ha : a ∈ tail_element reads v i) : a.addr = .dst i ∨ a.addr = .src i := by
  cases reads <;> simp only [tail_element, Bool.false_eq_true, if_false, if_true, List.mem_cons,
    List.cons_append, List.nil_append, List.not_mem_nil, or_false] at ha
  · rcases ha with rfl | rfl
    · exact .inl rfl
    · exact .inl rfl
  · rcases ha with rfl | rfl | rfl
    · exact .inl rfl
    · exact .inr rfl
    · exact .inl rfl

theorem mem_tail {count : Nat} (ha : a ∈ tail reads v (8 * gid) count) : InBlock gid a.addr := by
  obtain ⟨i, hi, hai⟩ := List.mem_flatMap.mp ha
  have hrange := List.mem_range'_1.mp hi
  have hle : uint (8 * gid + kElementsPerThread) ≤ 8 * gid + 8 := Nat.mod_le _ _
  have hblock : i / 8 = gid := by omega
  rcases mem_tail_element hai with h | h
  · rw [h]
    exact hblock
  · rw [h]
    exact hblock

theorem mem_vec_op (hgid : gid < 2 ^ 29) {aligned : Bool} {count : Nat}
    (ha : a ∈ vec_op reads v (uint (gid * kElementsPerThread)) aligned count gid) :
    InBlock gid a.addr := by
  rw [vec_op_eq hgid] at ha
  split at ha
  · exact mem_block ha
  · exact mem_tail ha

theorem InBlock.unique {t u : Nat} {x : Elem} (ht : InBlock t x) (hu : InBlock u x) : t = u := by
  cases x with
  | dst i => exact ht.symm.trans hu
  | src i => exact ht.symm.trans hu

/-! ## Kernels -/

variable {pso : PipelineState} {aligned : Bool} {count : Nat} {r₀ : Lanes α} {dst src : Nat → α}

theorem disjoint_vec_op (reads : Bool) (v : α → α → α) (hcount : count < 2 ^ 32) :
    Disjoint (compute_dispatch pso count).grid_width fun gid =>
      vec_op reads v (uint (gid * kElementsPerThread)) aligned count gid := by
  intro t ht u hu htu a ha b hb hab
  have hgrid : (compute_dispatch pso count).grid_width = (count + 7) / 8 := rfl
  have ht' : InBlock t a.addr := mem_vec_op (by omega) ha
  have hu' : InBlock u b.addr := mem_vec_op (by omega) hb
  rw [← hab] at hu'
  exact htu (ht'.unique hu')

theorem Result.dst_eq (hv : Uses reads v) (hcount : count < 2 ^ 32)
    (h : Result (compute_dispatch pso count).grid_width
      (fun gid => vec_op reads v (uint (gid * kElementsPerThread)) aligned count gid) r₀
      (buffers dst src) s) (i : Nat) :
    s.mem (.dst i) = if i < written count then v (dst i) (src i) else dst i := by
  have hgrid : (compute_dispatch pso count).grid_width = (count + 7) / 8 := rfl
  have hother : ∀ u < (count + 7) / 8, u ≠ i / 8 → ∀ a ∈ vec_op reads v
      (uint (u * kElementsPerThread)) aligned count u, a.addr ≠ .dst i := by
    intro u hu hui a ha hai
    have hblock : InBlock u a.addr := mem_vec_op (by omega) ha
    rw [hai] at hblock
    exact hui hblock.symm
  by_cases hi : i / 8 < (count + 7) / 8
  · rw [h.own (hgrid ▸ hi) (hgrid ▸ hother), alone_vec_op hv hcount hi]
    have hiff : (8 * (i / 8) ≤ i ∧ i < 8 * (i / 8) + min 8 (written count - 8 * (i / 8))) ↔
        i < written count := by omega
    simp only [applied, hiff, buffers]
  · -- past the last thread
    have hout : ¬i < written count := by
      unfold written
      split <;> omega
    rw [if_neg hout, h.frame]
    · rfl
    · intro u hu
      exact hother u (hgrid ▸ hu) (by omega)

/-- **A dispatch**: every interleaving of its threads ends, with `v` applied
    to the elements before `written count`. -/
theorem kernel_ends (hv : Uses reads v) (hcount : count < 2 ^ 32)
    {thread : Nat → List (LaneAccess α)} (hthread : thread = fun gid =>
      vec_op reads v (uint (gid * kElementsPerThread)) aligned count gid)
    (hinit : (dispatchThreads pso count r₀ dst src thread).init s) :
    (dispatchThreads pso count r₀ dst src thread).Ends (fun s =>
      ∀ i, s.mem (.dst i) = if i < written count then v (dst i) (src i) else dst i) s := by
  subst hthread
  apply (system_ends (disjoint_vec_op reads v hcount) hinit).mono
  intro s h i
  exact Result.dst_eq hv hcount h i

theorem written_of_le (h : count ≤ 2 ^ 32 - 8) : written count = count := if_neg (by omega)

theorem binary_kernel_ends (op : α → α → α) (hcount : count < 2 ^ 32)
    (hinit : (binary_kernel pso aligned count r₀ dst src op).init s) :
    (binary_kernel pso aligned count r₀ dst src op).Ends (fun s =>
      ∀ i, s.mem (.dst i) = if i < written count then op (dst i) (src i) else dst i) s :=
  kernel_ends (show Uses true op from .inl rfl) hcount rfl hinit

theorem scale_kernel_ends (mul : α → α → α) (scale : α) (hcount : count < 2 ^ 32)
    (hinit : (scale_kernel pso aligned count r₀ dst src mul scale).init s) :
    (scale_kernel pso aligned count r₀ dst src mul scale).Ends (fun s =>
      ∀ i, s.mem (.dst i) = if i < written count then mul (dst i) scale else dst i) s :=
  kernel_ends (show Uses false fun b _ => mul b scale from .inr fun _ _ _ => rfl) hcount rfl hinit

/-- The initial state of a dispatch. -/
def started (r₀ : Lanes α) (dst src : Nat → α) (thread : Nat → List (LaneAccess α)) :
    State Elem α (Lanes α) :=
  ⟨buffers dst src, fun t => ⟨r₀, thread t⟩⟩

/-- **The plain loop**: a dispatch for `count` elements, as many as
    `safe_numel` admits, applies the operation to these elements and to no
    others exactly if the end of the last block is below `2 ^ 32`. -/
theorem binary_kernel_eq_loop_iff {count : Nat} (hmax : count ≤ 2 ^ 32 - 1) :
    (∀ (α : Type) (op : α → α → α) (dst src : Nat → α) (aligned : Bool) (pso : PipelineState)
        (r₀ : Lanes α) (s : State Elem α (Lanes α)),
        (binary_kernel pso aligned count r₀ dst src op).init s →
        (binary_kernel pso aligned count r₀ dst src op).Ends (fun s =>
          ∀ i, s.mem (.dst i) = if i < count then op (dst i) (src i) else dst i) s) ↔
      count ≤ 2 ^ 32 - 8 := by
  constructor
  · intro h
    by_contra hbig
    -- storing `true` over `false` shows which elements were written
    have hloop := h Bool (fun _ b => b) (fun _ => false) (fun _ => true) true ⟨32, 1024⟩
      ⟨fun _ => false, fun _ => false⟩ _ rfl
    have hruns := hloop.and (binary_kernel_ends _ (by omega) rfl)
    obtain ⟨_, s, _, _, hs, hs'⟩ := hruns.exists_steps
    have hkept : s.mem (.dst count) = false := by simpa using hs count
    have hlost : s.mem (.dst count) = true := by
      have hcount : count < written count := by
        rw [written, if_pos (by omega)]
        omega
      simpa [hcount] using hs' count
    rw [hkept] at hlost
    exact Bool.false_ne_true hlost
  · intro hle α op dst src aligned pso r₀ s hinit
    have hends := binary_kernel_ends op (by omega) hinit
    rwa [written_of_le hle] at hends

/-- Nine elements: a full block and a tail of one. -/
theorem binary_kernel_nine :
    (binary_kernel ⟨32, 1024⟩ false 9 ⟨fun _ => 0, fun _ => 0⟩ (fun _ => 2) (fun _ => 1)
        (fun a b : Int => a + b)).Ends
      (fun s => ∀ i, s.mem (.dst i) = if i < 9 then 2 + 1 else 2)
      (started ⟨fun _ => 0, fun _ => 0⟩ (fun _ => 2) (fun _ => 1)
        (binary_thread (fun a b : Int => a + b) false 9)) :=
  (binary_kernel_eq_loop_iff (show 9 ≤ 2 ^ 32 - 1 by decide)).mpr (by decide) Int (fun a b => a + b)
    (fun _ => 2) (fun _ => 1) false ⟨32, 1024⟩ ⟨fun _ => 0, fun _ => 0⟩ _ rfl

/-- The largest number of elements that `safe_numel` admits: the last thread
    takes its block to be full and adds to one element too many. -/
theorem binary_kernel_past_end : ∃ s : State Elem Int (Lanes Int),
    (binary_kernel ⟨32, 1024⟩ true (2 ^ 32 - 1) ⟨fun _ => 0, fun _ => 0⟩ (fun _ => 0) (fun _ => 1)
      (· + ·)).Reachable s ∧
    (∀ t < (compute_dispatch ⟨32, 1024⟩ (2 ^ 32 - 1)).grid_width, (s.thread t).todo = []) ∧
    s.mem (.dst (2 ^ 32 - 1)) = 1 := by
  have hends := binary_kernel_ends (fun a b : Int => a + b) (by decide)
    (show (binary_kernel ⟨32, 1024⟩ true (2 ^ 32 - 1) ⟨fun _ => 0, fun _ => 0⟩ (fun _ => 0)
      (fun _ => 1) (· + ·)).init _ from rfl)
  obtain ⟨l, s, hrun, hstuck, hs⟩ := hends.exists_steps
  refine ⟨s, System.Reachable.steps (.init rfl) hrun, done_of_no_step hstuck, ?_⟩
  rw [hs]
  rfl

/-! ## Commands -/

variable {β : Type} {D : Device β} (f : Format) (m : Addr → β)

/-- A dispatched binary kernel does what the command says. -/
theorem binary_kernel_exec (op : BinaryOp) (dst src : Addr) (count : Fin (2 ^ 32 - 7)) (r₀ : Lanes (D.F f)) :
    (binary_kernel pso aligned count r₀ (elem (D.codec f) m dst) (elem (D.codec f) m src)
        (D.apply op f)).Ends
      (fun s => ∀ i, s.mem (.dst i) =
        elem (D.codec f) ((Cmd.binary op f dst src count : Cmd D).exec m) dst i)
      (started r₀ (elem (D.codec f) m dst) (elem (D.codec f) m src)
        (binary_thread (D.apply op f) aligned count)) := by
  apply (binary_kernel_ends (D.apply op f) (by omega) rfl).mono
  intro s hs i
  rw [hs i, written_of_le (by omega), Cmd.exec, elem_store_eq]

/-- A dispatched scaling kernel does what the command says. -/
theorem scale_kernel_exec (buf src : Addr) (factor : D.F f) (count : Fin (2 ^ 32 - 7)) (r₀ : Lanes (D.F f)) :
    (scale_kernel pso aligned count r₀ (elem (D.codec f) m buf) (elem (D.codec f) m src)
        (D.apply .mul f) factor).Ends
      (fun s => ∀ i, s.mem (.dst i) =
        elem (D.codec f) ((Cmd.scale f buf factor count : Cmd D).exec m) buf i)
      (started r₀ (elem (D.codec f) m buf) (elem (D.codec f) m src)
        (scale_thread (D.apply .mul f) factor aligned count)) := by
  apply (scale_kernel_ends (D.apply .mul f) factor (by omega) rfl).mono
  intro s hs i
  rw [hs i, written_of_le (by omega), Cmd.exec, elem_store_eq]

end Shaders

end Mccl
