import Mathlib.Order.Interval.Finset.Nat
import Mccl.Framework.Alignment
import Mccl.Framework.Lending
import Mccl.Framework.System

/-! # The Buffer Pool

    Model of `runtime/MemoryPool.cpp`: pools of host buffers, the callers that
    acquire and release them, and the `PooledBuffer` objects that give theirs back
    when they are destroyed. A `Buffer` is copied by value, so that who owns the
    memory is nowhere written down.

    * `World.lending` reads a state as a lending of blocks: each is in a pool, or
      handed out once. `step_refines`: every call is a step of the lending, or none.
    * `pool_exact`: buffers are never shared, `total_allocated` is the sum of their
      capacities, and every buffer that was handed out comes back once.
    * A buffer that is reused is the smallest that fits the rounded request. The
      rounding wraps for the last sizes, and then any buffer is taken to fit. -/

namespace Mccl.Pooling

open Function

/-! ## Buffers and Pools -/

/-- `data` is an address, 0 the null pointer. `serial` is a ghost: the number of the
    hand-out, which goes where the value goes. -/
structure Buffer where
  data : Nat
  capacity : UInt64
  used : UInt64
  serial : Nat := 0
deriving DecidableEq

/-- `Buffer{}`. -/
def Buffer.null : Buffer := ⟨0, 0, 0, 0⟩

structure MemoryPool where
  alignment_ : UInt64
  pool_ : List Buffer := []
  total_allocated_ : UInt64 := 0

namespace MemoryPool

def align_up (n alignment : UInt64) : UInt64 := (n + alignment - 1) &&& ~~~(alignment - 1)

/-- The loop over the pool from position `i` on; `best` is the position of the
    smallest buffer so far, with the buffer. -/
def bestFit (nbytes : UInt64) : List Buffer → Nat → Option (Nat × Buffer) → Option (Nat × Buffer)
  | [], _, best => best
  | buf :: rest, i, best =>
    if nbytes ≤ buf.capacity ∧ best.all fun b => buf.capacity < b.2.capacity then
      bestFit nbytes rest (i + 1) (some (i, buf))
    else bestFit nbytes rest (i + 1) best

/-- A quarter more, up to 256 MB, and rounded up again. -/
def alloc_size (alignment nbytes : UInt64) : UInt64 :=
  align_up (if nbytes ≤ 268435456 then nbytes + (nbytes >>> 2) else nbytes) alignment

/-- From the rounded request on. `ptr` is what `posix_memalign` returns, if it is
    called and does not fail. -/
def acquireAligned (p : MemoryPool) (nbytes : UInt64) (ptr : Option Nat) : Except String (Buffer × MemoryPool) :=
  match bestFit nbytes p.pool_ 0 none with
  | some (best, buf) => .ok ({ buf with used := nbytes }, { p with pool_ := p.pool_.eraseIdx best })
  | none =>
    match ptr with
    | none => .error ("MemoryPool: allocation failed for " ++ toString (alloc_size p.alignment_ nbytes) ++ " bytes")
    | some data =>
      .ok (⟨data, alloc_size p.alignment_ nbytes, nbytes, 0⟩,
        { p with total_allocated_ := p.total_allocated_ + alloc_size p.alignment_ nbytes })

def acquire (p : MemoryPool) (nbytes : UInt64) (ptr : Option Nat) : Except String (Buffer × MemoryPool) :=
  p.acquireAligned (align_up nbytes p.alignment_) ptr

def release (p : MemoryPool) (buf : Buffer) : MemoryPool :=
  if buf.data = 0 then p else { p with pool_ := p.pool_ ++ [{ buf with used := 0 }] }

def trim (p : MemoryPool) : MemoryPool :=
  { p with
    pool_ := []
    total_allocated_ := p.pool_.foldl (fun total buf => total - buf.capacity) p.total_allocated_ }

end MemoryPool

/-- An RAII guard; `ι` names the pools. -/
structure PooledBuffer (ι : Type) where
  pool_ : Option ι
  buf_ : Buffer

namespace PooledBuffer

variable {ι : Type}

/-- What is left of an object that was moved from. -/
def moved : PooledBuffer ι := ⟨none, .null⟩

/-- `pool_ && buf_.data`: what the object has to give back. -/
def held (o : PooledBuffer ι) : Option (ι × Buffer) :=
  match o.pool_ with
  | some i => if o.buf_.data ≠ 0 then some (i, o.buf_) else none
  | none => none

end PooledBuffer

/-! ## Calls -/

/-- The pools, the buffers that callers of `acquire` have, and the objects in the
    order of their construction; a destroyed one is `none`. The rest is ghost. -/
structure World (ι : Type) where
  pools : ι → MemoryPool
  raw : List (ι × Buffer) := []
  objects : List (Option (PooledBuffer ι)) := []
  /-- The number of buffers that have been handed out. -/
  next : Nat := 0
  /-- The hand-outs that have been released. -/
  returned : List Nat := []

inductive PoolCall (ι : Type) where
  | acquire (pool : ι) (nbytes : UInt64) (ptr : Option Nat)
  | release (buffer : Nat)
  | trim (pool : ι)
  | construct (pool : ι) (nbytes : UInt64) (ptr : Option Nat)
  | move (other : Nat)
  | assign (this other : Nat)
  | destroy (this : Nat)

namespace World

variable {ι : Type}

/-- What the objects hold. -/
def holding (objects : List (Option (PooledBuffer ι))) : List (ι × Buffer) :=
  objects.flatMap fun o => (o.bind PooledBuffer.held).toList

/-- The buffers that are handed out. -/
def handed (w : World ι) : Multiset (ι × Buffer) := ↑(w.raw ++ holding w.objects)

variable [DecidableEq ι]

/-- The pool after it has handed out a buffer. -/
def handOut (w : World ι) (i : ι) (pool : MemoryPool) : World ι :=
  { w with pools := Function.update w.pools i pool, next := w.next + 1 }

def release (w : World ι) (i : ι) (buf : Buffer) : World ι :=
  { w with
    pools := Function.update w.pools i ((w.pools i).release buf)
    returned := if buf.data = 0 then w.returned else w.returned ++ [buf.serial] }

/-- `if (pool_ && buf_.data) pool_->release(buf_)`. -/
def giveBack (w : World ι) (o : PooledBuffer ι) : World ι :=
  match o.held with
  | some (i, buf) => w.release i buf
  | none => w

end World

/-! ### Blocks -/

/-- Memory from `posix_memalign`. -/
structure PoolBlock where
  base : Nat
  size : UInt64
deriving DecidableEq

namespace PoolBlock

/-- The addresses of the block; also an empty block has an address of its own. -/
def addresses (b : PoolBlock) : Finset Nat := insert b.base (Finset.Ico b.base (b.base + b.size.toNat))

def weight (b : PoolBlock) : Nat := b.size.toNat

theorem base_mem_addresses (b : PoolBlock) : b.base ∈ b.addresses := Finset.mem_insert_self ..

theorem weight_le_card (b : PoolBlock) : b.weight ≤ b.addresses.card := by
  have hcard : b.weight = (Finset.Ico b.base (b.base + b.size.toNat)).card := by
    rw [Nat.card_Ico, Nat.add_sub_cancel_left, weight]
  rw [hcard]
  exact Finset.card_le_card (Finset.subset_insert ..)

end PoolBlock

def Buffer.block (b : Buffer) : PoolBlock := ⟨b.data, b.capacity⟩

/-- The alignments that `posix_memalign` accepts: powers of two that are multiples of
    the size of a pointer. -/
def ValidAlignment (a : UInt64) : Prop := ∃ k, 3 ≤ k ∧ k < 64 ∧ a.toNat = 2 ^ k

namespace World

variable {ι : Type}

/-- The pools and their users as a lending of blocks. -/
def lending (w : World ι) : Lending.State ι PoolBlock where
  free i := ↑((w.pools i).pool_.map Buffer.block)
  lent := w.handed.map fun h => (h.1, h.2.block, h.2.serial)
  total i := (w.pools i).total_allocated_.toNat
  next := w.next
  returned := ↑w.returned

variable [DecidableEq ι]

/-- What is assumed of a successful `posix_memalign`: the alignment is valid, and
    the block is in the address space, not at the null pointer, and apart from all
    blocks that are in use. -/
structure Usable (w : World ι) (i : ι) (b : PoolBlock) : Prop where
  aligned : ValidAlignment (w.pools i).alignment_
  base : 0 < b.base ∧ b.base < 2 ^ 64
  size : b.base + b.size.toNat ≤ 2 ^ 64
  fresh : Lending.Fresh PoolBlock.addresses w.lending b

/-- The allocation that a request may lead to succeeds with a usable block, or
    fails. -/
def Answers (w : World ι) (i : ι) (nbytes : UInt64) (ptr : Option Nat) : Prop :=
  ∀ data, ptr = some data →
    w.Usable i ⟨data, MemoryPool.alloc_size (w.pools i).alignment_
      (MemoryPool.align_up nbytes (w.pools i).alignment_)⟩

inductive Step : World ι → PoolCall ι → World ι → Prop where
  | acquire {w : World ι} {i : ι} {nbytes : UInt64} {ptr : Option Nat} {buf : Buffer} {pool : MemoryPool}
      (hptr : w.Answers i nbytes ptr) (h : (w.pools i).acquire nbytes ptr = .ok (buf, pool)) :
      Step w (.acquire i nbytes ptr)
        { w.handOut i pool with raw := w.raw ++ [(i, { buf with serial := w.next })] }
  | acquire_throws {w : World ι} {i : ι} {nbytes : UInt64} {ptr : Option Nat} {e : String}
      (h : (w.pools i).acquire nbytes ptr = .error e) : Step w (.acquire i nbytes ptr) w
  /-- A caller releases a buffer that it has, and has it no longer. -/
  | release {w : World ι} {k : Nat} {i : ι} {buf : Buffer} (h : w.raw[k]? = some (i, buf)) :
      Step w (.release k) { w.release i buf with raw := w.raw.eraseIdx k }
  | trim (w : World ι) (i : ι) :
      Step w (.trim i) { w with pools := Function.update w.pools i (w.pools i).trim }
  | construct {w : World ι} {i : ι} {nbytes : UInt64} {ptr : Option Nat} {buf : Buffer} {pool : MemoryPool}
      (hptr : w.Answers i nbytes ptr) (h : (w.pools i).acquire nbytes ptr = .ok (buf, pool)) :
      Step w (.construct i nbytes ptr)
        { w.handOut i pool with objects := w.objects ++ [some ⟨some i, { buf with serial := w.next }⟩] }
  | construct_throws {w : World ι} {i : ι} {nbytes : UInt64} {ptr : Option Nat} {e : String}
      (h : (w.pools i).acquire nbytes ptr = .error e) : Step w (.construct i nbytes ptr) w
  | move {w : World ι} {other : Nat} {o : PooledBuffer ι} (h : w.objects[other]? = some (some o)) :
      Step w (.move other)
        { w with objects := w.objects.set other (some .moved) ++ [some ⟨o.pool_, o.buf_⟩] }
  | assign_self {w : World ι} {this : Nat} {o : PooledBuffer ι} (h : w.objects[this]? = some (some o)) :
      Step w (.assign this this) w
  | assign {w : World ι} {this other : Nat} {o o' : PooledBuffer ι} (hne : this ≠ other)
      (h : w.objects[this]? = some (some o)) (h' : w.objects[other]? = some (some o')) :
      Step w (.assign this other)
        { w.giveBack o with
          objects := (w.objects.set this (some ⟨o'.pool_, o'.buf_⟩)).set other (some .moved) }
  | destroy {w : World ι} {this : Nat} {o : PooledBuffer ι} (h : w.objects[this]? = some (some o)) :
      Step w (.destroy this) { w.giveBack o with objects := w.objects.set this none }

/-- Pools with the given alignments, before any call. -/
def start (alignment : ι → UInt64) : World ι where
  pools i := { alignment_ := alignment i }

def system (alignment : ι → UInt64) : System (World ι) (PoolCall ι) := ⟨fun w => w = start alignment, Step⟩

end World

/-! ## Best Fit -/

namespace MemoryPool

/-- The buffer has room for `n` bytes, and no smaller one of the pool has. -/
def FitsBest (pool : List Buffer) (n : UInt64) (buf : Buffer) : Prop :=
  n ≤ buf.capacity ∧ ∀ b ∈ pool, n ≤ b.capacity → buf.capacity ≤ b.capacity

/-- What the loop has found in a part of the pool. -/
def Found (pool : List Buffer) (n : UInt64) : Option (Nat × Buffer) → Prop
  | none => ∀ b ∈ pool, ¬n ≤ b.capacity
  | some (k, buf) => pool[k]? = some buf ∧ FitsBest pool n buf

variable {pool : List Buffer} {n : UInt64} {best : Option (Nat × Buffer)} {buf : Buffer}

theorem Found.skip (h : Found pool n best)
    (hskip : ¬(n ≤ buf.capacity ∧ best.all fun b => buf.capacity < b.2.capacity)) : Found (pool ++ [buf]) n best := by
  cases best with
  | none =>
    refine List.forall_mem_append.mpr ⟨h, List.forall_mem_singleton.mpr fun hfits => ?_⟩
    exact hskip ⟨hfits, rfl⟩
  | some best =>
    obtain ⟨hk, hfits, hbest⟩ := h
    refine ⟨?_, hfits, List.forall_mem_append.mpr ⟨hbest, List.forall_mem_singleton.mpr fun hbuf => ?_⟩⟩
    · rw [List.getElem?_append_left (List.getElem?_eq_some_iff.mp hk).1, hk]
    · apply UInt64.not_lt.mp
      intro hlt
      exact hskip ⟨hbuf, decide_eq_true hlt⟩

theorem Found.take (h : Found pool n best)
    (hfits : n ≤ buf.capacity) (hless : best.all (fun b => buf.capacity < b.2.capacity) = true) :
    Found (pool ++ [buf]) n (some (pool.length, buf)) := by
  refine ⟨List.getElem?_concat_length, hfits, ?_⟩
  refine List.forall_mem_append.mpr ⟨fun b hb hfits' => ?_, List.forall_mem_singleton.mpr fun _ => UInt64.le_refl _⟩
  cases best with
  | none => exact absurd hfits' (h b hb)
  | some best =>
    have hlt : buf.capacity < best.2.capacity := of_decide_eq_true hless
    exact UInt64.le_of_lt (UInt64.lt_of_lt_of_le hlt (h.2.2 b hb hfits'))

theorem bestFit_found {rest : List Buffer} (h : Found pool n best) :
    Found (pool ++ rest) n (bestFit n rest pool.length best) := by
  induction rest generalizing pool best with
  | nil =>
    rw [List.append_nil]
    exact h
  | cons buf rest ih =>
    have hsnoc : pool ++ buf :: rest = (pool ++ [buf]) ++ rest := by simp
    have hlength : pool.length + 1 = (pool ++ [buf]).length := by simp
    rw [bestFit, hsnoc, hlength]
    split
    case isTrue htake => exact ih (h.take htake.1 htake.2)
    case isFalse hskip => exact ih (h.skip hskip)

/-- `acquire` takes the best buffer out of the pool, or allocates one because none
    fits. -/
inductive Acquired (p : MemoryPool) (nbytes : UInt64) (ptr : Option Nat) : Buffer → MemoryPool → Prop where
  | reused {k : Nat} {buf : Buffer} (hk : p.pool_[k]? = some buf) (hbest : FitsBest p.pool_ nbytes buf) :
      Acquired p nbytes ptr { buf with used := nbytes } { p with pool_ := p.pool_.eraseIdx k }
  | allocated {data : Nat} (hnone : ∀ b ∈ p.pool_, ¬nbytes ≤ b.capacity) (hptr : ptr = some data) :
      Acquired p nbytes ptr ⟨data, alloc_size p.alignment_ nbytes, nbytes, 0⟩
        { p with total_allocated_ := p.total_allocated_ + alloc_size p.alignment_ nbytes }

theorem acquired_of_ok {p pool : MemoryPool} {nbytes : UInt64} {ptr : Option Nat}
    (h : p.acquire nbytes ptr = .ok (buf, pool)) : Acquired p (align_up nbytes p.alignment_) ptr buf pool := by
  have hempty : Found [] (align_up nbytes p.alignment_) none := List.forall_mem_nil _
  have hfound : Found p.pool_ (align_up nbytes p.alignment_) (bestFit (align_up nbytes p.alignment_) p.pool_ 0 none) :=
    bestFit_found hempty
  unfold acquire acquireAligned at h
  cases hbest : bestFit (align_up nbytes p.alignment_) p.pool_ 0 none with
  | some found =>
    rw [hbest] at h hfound
    cases h
    exact .reused hfound.1 hfound.2
  | none =>
    rw [hbest] at h hfound
    cases ptr with
    | none => cases h
    | some data =>
      cases h
      exact .allocated hfound rfl

theorem toNat_trim {total : UInt64} (h : (pool.map fun b => b.capacity.toNat).sum ≤ total.toNat) :
    (pool.foldl (fun total buf => total - buf.capacity) total).toNat =
      total.toNat - (pool.map fun b => b.capacity.toNat).sum := by
  induction pool generalizing total with
  | nil => rfl
  | cons buf rest ih =>
    rw [List.map_cons, List.sum_cons] at h ⊢
    have hsub : (total - buf.capacity).toNat = total.toNat - buf.capacity.toNat :=
      UInt64.toNat_sub_of_le _ _ (UInt64.le_iff_toNat_le.mpr (by omega))
    rw [List.foldl_cons, ih (by omega), hsub, Nat.sub_sub]

end MemoryPool

/-! ## Who Holds What -/

namespace World

variable {ι : Type} {w w' : World ι} {i : ι} {buf : Buffer}

theorem holding_append (objects : List (Option (PooledBuffer ι))) (o : PooledBuffer ι) :
    holding (objects ++ [some o]) = holding objects ++ o.held.toList := by
  simp [holding]

/-- An object is replaced: what it held goes, and what the new one holds comes. -/
theorem holding_set {objects : List (Option (PooledBuffer ι))} {k : Nat} {o : Option (PooledBuffer ι)}
    (h : objects[k]? = some o) (x : Option (PooledBuffer ι)) :
    (holding (objects.set k x) : Multiset (ι × Buffer)) + (o.bind PooledBuffer.held).toList =
      holding objects + (x.bind PooledBuffer.held).toList := by
  induction objects generalizing k with
  | nil => cases h
  | cons a rest ih =>
    cases k with
    | zero =>
      cases h
      simp only [holding, List.set_cons_zero, List.flatMap_cons, ← Multiset.coe_add]
      ac_rfl
    | succ k =>
      have hrest := ih (k := k) h
      simp only [holding, List.set_cons_succ, List.flatMap_cons, ← Multiset.coe_add] at hrest ⊢
      rw [add_assoc, hrest, add_assoc]

theorem handed_eq (w : World ι) : w.handed = w.raw + holding w.objects := (Multiset.coe_add ..).symm

variable [DecidableEq ι]
  {pool : MemoryPool} {nbytes : UInt64} {ptr : Option Nat} {b : Buffer} {call : PoolCall ι}

theorem lending_update (hpools : w'.pools = update w.pools i pool) :
    w'.lending.free = update w.lending.free i ↑(pool.pool_.map Buffer.block) ∧
      w'.lending.total = update w.lending.total i pool.total_allocated_.toNat := by
  constructor
  · funext j
    show ((w'.pools j).pool_.map Buffer.block : Multiset PoolBlock) = _
    by_cases hj : j = i
    · subst hj
      rw [hpools, update_self, update_self]
    · rw [hpools, update_of_ne hj, update_of_ne hj]
      rfl
  · funext j
    show (w'.pools j).total_allocated_.toNat = _
    by_cases hj : j = i
    · subst hj
      rw [hpools, update_self, update_self]
    · rw [hpools, update_of_ne hj, update_of_ne hj]
      rfl

/-- What is true of the blocks of a pool with the given alignment. -/
structure SoundBlock (alignment : UInt64) (b : PoolBlock) : Prop where
  aligned : ValidAlignment alignment
  base : 0 < b.base ∧ b.base < 2 ^ 64
  size : b.base + b.size.toNat ≤ 2 ^ 64
  multiple : alignment.toNat ∣ b.size.toNat

theorem SoundBlock.addresses_subset {alignment : UInt64} {b : PoolBlock} (h : SoundBlock alignment b) :
    b.addresses ⊆ Finset.Ico 1 (2 ^ 64) := by
  intro x hx
  have hbase := h.base
  have hsize := h.size
  rw [PoolBlock.addresses, Finset.mem_insert, Finset.mem_Ico] at hx
  rw [Finset.mem_Ico]
  omega

/-- Blocks that share no address fit into the address space. -/
theorem sum_weight_lt {alignment : UInt64} {m : Multiset PoolBlock} (hm : ∀ b ∈ m, SoundBlock alignment b)
    (h : (Lending.occupied PoolBlock.addresses m).Nodup) : (m.map PoolBlock.weight).sum < 2 ^ 64 := by
  have hle := Lending.sum_weight_le h (fun b hb => (hm b hb).addresses_subset) PoolBlock.weight_le_card
  rw [Nat.card_Ico] at hle
  exact Nat.lt_of_le_of_lt hle (by decide)

theorem sound_of_usable {data : Nat}
    (h : w.Usable i ⟨data, MemoryPool.alloc_size (w.pools i).alignment_ nbytes⟩) :
    SoundBlock (w.pools i).alignment_ ⟨data, MemoryPool.alloc_size (w.pools i).alignment_ nbytes⟩ := by
  obtain ⟨k, -, -, hk⟩ := h.aligned
  exact ⟨h.aligned, h.base, h.size, Alignment.dvd_align hk⟩

variable {alignment : ι → UInt64}

/-- A step of the lending, whose pools make sound blocks. -/
abbrev LendingStep (alignment : ι → UInt64) : Lending.State ι PoolBlock → Lending.State ι PoolBlock → Prop :=
  Lending.Step PoolBlock.addresses PoolBlock.weight fun i => SoundBlock (alignment i)

/-- The invariant: that of the lending, and the alignments are those of the start. -/
structure Sound (alignment : ι → UInt64) (w : World ι) : Prop where
  lending : Lending.Inv PoolBlock.addresses PoolBlock.weight (fun i => SoundBlock (alignment i)) w.lending
  alignments : ∀ i, (w.pools i).alignment_ = alignment i

/-! ### Calls as steps of the lending -/

theorem refines_acquire (hsound : Sound alignment w)
    (hptr : w.Answers i nbytes ptr) (h : (w.pools i).acquire nbytes ptr = .ok (buf, pool))
    (hpools : w'.pools = update w.pools i pool)
    (hhanded : w'.handed = (i, { buf with serial := w.next }) ::ₘ w.handed) (hnext : w'.next = w.next + 1)
    (hreturned : w'.returned = w.returned) :
    LendingStep alignment w.lending w'.lending := by
  obtain ⟨hfree, htotal⟩ := lending_update hpools
  have hlent : w'.lending.lent = (i, buf.block, w.next) ::ₘ w.lending.lent := by
    show w'.handed.map _ = _
    rw [hhanded, Multiset.map_cons]
    rfl
  have hreturned' : w'.lending.returned = w.lending.returned := congrArg Multiset.ofList hreturned
  cases MemoryPool.acquired_of_ok h with
  | @reused k b hk hbest =>
    obtain ⟨hlt, hget⟩ := List.getElem?_eq_some_iff.mp hk
    have hperm : (b :: (w.pools i).pool_.eraseIdx k).Perm (w.pools i).pool_ := by
      rw [← hget]
      exact List.getElem_cons_eraseIdx_perm hlt
    have hlend : w.lending.free i = b.block ::ₘ ↑(((w.pools i).pool_.eraseIdx k).map Buffer.block) :=
      Multiset.coe_eq_coe.mpr (hperm.symm.map Buffer.block)
    have htotal' : w'.lending.total = w.lending.total := htotal.trans (update_eq_self ..)
    convert Lending.Step.lend hlend using 1
    exact Lending.State.ext hfree hlent htotal' hnext hreturned'
  | @allocated data hnone hdata =>
    have husable := hptr data hdata
    have hblock := sound_of_usable husable
    nth_rewrite 1 [hsound.alignments i] at hblock
    -- the sum does not wrap: all blocks, the new one included, are in the address space
    have hlt : (w.pools i).total_allocated_.toNat + (MemoryPool.alloc_size (w.pools i).alignment_
        (MemoryPool.align_up nbytes (w.pools i).alignment_)).toNat < 2 ^ 64 := by
      have hsum := sum_weight_lt (Multiset.forall_mem_cons.mpr ⟨hblock, hsound.lending.good i⟩) (by
        rw [Lending.occupied_cons, Multiset.nodup_add]
        exact ⟨Finset.nodup _, hsound.lending.nodup i, husable.fresh i⟩)
      rw [Multiset.map_cons, Multiset.sum_cons, ← hsound.lending.totals i, Nat.add_comm] at hsum
      exact hsum
    have hfree' : w'.lending.free = w.lending.free := hfree.trans (update_eq_self ..)
    have htotal' := htotal.trans (congrArg (update w.lending.total i)
      ((UInt64.toNat_add ..).trans (Nat.mod_eq_of_lt hlt)))
    have hstep : LendingStep alignment w.lending _ := Lending.Step.create hblock husable.fresh
    convert hstep using 1
    exact Lending.State.ext hfree' hlent htotal' hnext hreturned'

theorem refines_release (hdata : buf.data ≠ 0)
    (hpools : w'.pools = update w.pools i ((w.pools i).release buf))
    (hhanded : w.handed = (i, buf) ::ₘ w'.handed) (hnext : w'.next = w.next)
    (hreturned : w'.returned = w.returned ++ [buf.serial]) :
    LendingStep alignment w.lending w'.lending := by
  obtain ⟨hfree, htotal⟩ := lending_update hpools
  have hrelease : (w.pools i).release buf =
      { w.pools i with pool_ := (w.pools i).pool_ ++ [{ buf with used := 0 }] } := if_neg hdata
  rw [hrelease] at hfree htotal
  have hlent : w.lending.lent = (i, buf.block, buf.serial) ::ₘ w'.lending.lent := by
    show w.handed.map _ = _
    rw [hhanded, Multiset.map_cons]
    rfl
  have hpool : (↑(((w.pools i).pool_ ++ [{ buf with used := 0 }]).map Buffer.block) : Multiset PoolBlock) =
      buf.block ::ₘ w.lending.free i := by
    rw [List.map_append]
    exact Multiset.coe_eq_coe.mpr List.perm_append_comm
  have hfree' := hfree.trans (congrArg (update w.lending.free i) hpool)
  have htotal' : w'.lending.total = w.lending.total := htotal.trans (update_eq_self ..)
  have hreturned' : w'.lending.returned = buf.serial ::ₘ w.lending.returned := by
    show (w'.returned : Multiset Nat) = _
    rw [hreturned]
    exact Multiset.coe_eq_coe.mpr List.perm_append_comm
  convert Lending.Step.giveBack hlent using 1
  exact Lending.State.ext hfree' rfl htotal' hnext hreturned'

theorem refines_trim (hsound : Sound alignment w) (i : ι) :
    LendingStep alignment w.lending
      { w with pools := update w.pools i (w.pools i).trim }.lending := by
  obtain ⟨hfree, htotal⟩ := lending_update
    (show { w with pools := update w.pools i (w.pools i).trim }.pools = _ from rfl)
  have hsum : ((w.lending.free i).map PoolBlock.weight).sum =
      ((w.pools i).pool_.map fun b => b.capacity.toNat).sum := by
    show (((w.pools i).pool_.map Buffer.block : Multiset PoolBlock).map PoolBlock.weight).sum = _
    rw [Multiset.map_coe, Multiset.sum_coe, List.map_map]
    rfl
  have hle : ((w.pools i).pool_.map fun b => b.capacity.toNat).sum ≤ (w.pools i).total_allocated_.toNat := by
    have htotals : (w.pools i).total_allocated_.toNat = _ := hsound.lending.totals i
    rw [Lending.State.live, Multiset.map_add, Multiset.sum_add, hsum] at htotals
    omega
  have htrim : (w.pools i).trim.total_allocated_.toNat =
      w.lending.total i - ((w.lending.free i).map PoolBlock.weight).sum := by
    rw [hsum]
    exact MemoryPool.toNat_trim hle
  have htotal' := htotal.trans (congrArg (update w.lending.total i) htrim)
  convert Lending.Step.discard i using 1
  exact Lending.State.ext hfree rfl htotal' rfl rfl

theorem mem_live_of_pooled (h : b ∈ (w.pools i).pool_) : b.block ∈ w.lending.live i :=
  Multiset.mem_add.mpr (.inl (List.mem_map_of_mem h))

theorem mem_live_of_handed (h : (i, buf) ∈ w.handed) : buf.block ∈ w.lending.live i := by
  refine Multiset.mem_add.mpr (.inr ?_)
  refine Multiset.mem_map.mpr ⟨(i, buf.block, buf.serial), Multiset.mem_filter.mpr ⟨?_, rfl⟩, rfl⟩
  exact Multiset.mem_map.mpr ⟨(i, buf), h, rfl⟩

theorem data_ne_zero (hsound : Sound alignment w) (h : buf.block ∈ w.lending.live i) : buf.data ≠ 0 :=
  Nat.pos_iff_ne_zero.mp (hsound.lending.good i _ h).base.1

theorem acquired_data_ne_zero (hsound : Sound alignment w)
    (hptr : w.Answers i nbytes ptr) (h : (w.pools i).acquire nbytes ptr = .ok (buf, pool)) : buf.data ≠ 0 := by
  cases MemoryPool.acquired_of_ok h with
  | reused hk _ =>
    have hlive := mem_live_of_pooled (List.mem_of_getElem? hk)
    exact (Nat.pos_iff_ne_zero.mp (hsound.lending.good i _ hlive).base.1)
  | allocated _ hdata => exact Nat.pos_iff_ne_zero.mp (hptr _ hdata).base.1

omit [DecidableEq ι] in
theorem lending_eq (hpools : w'.pools = w.pools) (hhanded : w'.handed = w.handed) (hnext : w'.next = w.next)
    (hreturned : w'.returned = w.returned) : w'.lending = w.lending := by
  unfold lending
  rw [hpools, hhanded, hnext, hreturned]

theorem refines_giveBack {o : PooledBuffer ι} {objects : List (Option (PooledBuffer ι))}
    (h : (holding objects : Multiset (ι × Buffer)) + o.held.toList = holding w.objects) :
    { w.giveBack o with objects := objects }.lending = w.lending ∨
      LendingStep alignment w.lending { w.giveBack o with objects := objects }.lending := by
  unfold giveBack
  cases hheld : o.held with
  | none =>
    rw [hheld] at h
    left
    apply lending_eq
    · rfl
    · rw [handed_eq, handed_eq, ← h]
      exact congrArg _ (add_zero _).symm
    · rfl
    · rfl
  | some l =>
    obtain ⟨i, buf⟩ := l
    have hdata : buf.data ≠ 0 := by
      unfold PooledBuffer.held at hheld
      grind
    rw [hheld] at h
    right
    apply refines_release hdata
    · rfl
    · rw [handed_eq, handed_eq, ← h]
      show (w.raw : Multiset (ι × Buffer)) + (holding objects + {(i, buf)}) = (i, buf) ::ₘ (↑w.raw + ↑(holding objects))
      rw [← add_assoc, Multiset.add_comm _ {(i, buf)}, Multiset.singleton_add]
    · rfl
    · exact if_neg hdata

/-- **Refinement**: every call is a step of the lending, or leaves it as it is. -/
theorem step_refines (hsound : Sound alignment w) (h : Step w call w') :
    w'.lending = w.lending ∨ LendingStep alignment w.lending w'.lending := by
  cases h with
  | acquire hptr h =>
    right
    apply refines_acquire hsound hptr h
    · rfl
    · rw [handed_eq, handed_eq, ← Multiset.cons_add]
      exact congrArg (· + _) (Multiset.coe_eq_coe.mpr List.perm_append_comm)
    · rfl
    · rfl
  | acquire_throws h => exact .inl rfl
  | @release k i buf hk =>
    obtain ⟨hlt, hget⟩ := List.getElem?_eq_some_iff.mp hk
    have hperm : ((i, buf) :: w.raw.eraseIdx k).Perm w.raw := by
      rw [← hget]
      exact List.getElem_cons_eraseIdx_perm hlt
    have hmem : (i, buf) ∈ w.handed := by
      rw [handed_eq]
      exact Multiset.mem_add.mpr (.inl (List.mem_of_getElem? hk))
    have hdata := data_ne_zero hsound (mem_live_of_handed hmem)
    right
    apply refines_release hdata
    · rfl
    · rw [handed_eq, handed_eq, ← Multiset.cons_add]
      exact congrArg (· + _) (Multiset.coe_eq_coe.mpr hperm.symm)
    · rfl
    · exact if_neg hdata
  | trim i => exact .inr (refines_trim hsound i)
  | @construct i nbytes ptr buf pool hptr h =>
    have hheld : (⟨some i, { buf with serial := w.next }⟩ : PooledBuffer ι).held = some (i, { buf with serial := w.next }) :=
      if_pos (acquired_data_ne_zero hsound hptr h)
    right
    apply refines_acquire hsound hptr h
    · rfl
    · rw [handed_eq, handed_eq, holding_append, hheld, ← Multiset.add_cons]
      exact congrArg (_ + ·) (Multiset.coe_eq_coe.mpr List.perm_append_comm)
    · rfl
    · rfl
  | construct_throws h => exact .inl rfl
  | move hother =>
    left
    apply lending_eq
    · rfl
    · have hset := holding_set hother (some .moved)
      rw [handed_eq, handed_eq, holding_append, ← Multiset.coe_add]
      exact congrArg _ (hset.trans (add_zero _))
    · rfl
    · rfl
  | assign_self _ => exact .inl rfl
  | @assign this other o o' hne hthis hother =>
    apply refines_giveBack
    have hother' : (w.objects.set this (some o'))[other]? = some (some o') := by
      rw [List.getElem?_set_ne hne, hother]
    -- what `other` has is counted at `this` in between, and there only at the end
    have hset := holding_set hthis (some o')
    have hset' := (holding_set hother' (some .moved)).trans (add_zero _)
    rw [← hset', add_right_comm] at hset
    exact Multiset.add_left_inj.mp hset
  | destroy hthis =>
    apply refines_giveBack
    exact (holding_set hthis none).trans (add_zero _)

theorem alignment_update (hpool : pool.alignment_ = (w.pools i).alignment_) (j : ι) :
    (update w.pools i pool j).alignment_ = (w.pools j).alignment_ := by
  by_cases hj : j = i
  · subst hj
    rw [update_self, hpool]
  · rw [update_of_ne hj]

theorem alignment_acquire {p : MemoryPool}
    (h : p.acquire nbytes ptr = .ok (buf, pool)) : pool.alignment_ = p.alignment_ := by
  cases MemoryPool.acquired_of_ok h with
  | reused _ _ => rfl
  | allocated _ _ => rfl

theorem alignment_release (w : World ι) (i : ι) (buf : Buffer) (j : ι) :
    ((w.release i buf).pools j).alignment_ = (w.pools j).alignment_ := by
  apply alignment_update
  unfold MemoryPool.release
  split
  · rfl
  · rfl

theorem alignment_giveBack (w : World ι) (o : PooledBuffer ι) (j : ι) :
    ((w.giveBack o).pools j).alignment_ = (w.pools j).alignment_ := by
  unfold giveBack
  split
  · exact alignment_release ..
  · rfl

theorem Step.alignment_eq (h : Step w call w') (j : ι) :
    (w'.pools j).alignment_ = (w.pools j).alignment_ := by
  cases h with
  | acquire _ h => exact alignment_update (alignment_acquire h) j
  | release _ => exact alignment_release ..
  | trim i =>
    have htrim : (w.pools i).trim.alignment_ = (w.pools i).alignment_ := rfl
    exact alignment_update htrim j
  | construct _ h => exact alignment_update (alignment_acquire h) j
  | assign _ _ _ => exact alignment_giveBack ..
  | destroy _ => exact alignment_giveBack ..
  | _ => rfl

theorem Step.sound (h : Step w call w') (hsound : Sound alignment w) : Sound alignment w' := by
  refine ⟨?_, fun i => (h.alignment_eq i).trans (hsound.alignments i)⟩
  rcases step_refines hsound h with hsame | hstep
  · rw [hsame]
    exact hsound.lending
  · exact hstep.inv hsound.lending

theorem sound_start : Sound alignment (start alignment) := by
  have hlive : ∀ i, (start alignment).lending.live i = 0 := fun _ => rfl
  refine ⟨⟨fun i => ?_, fun i j _ => ?_, fun i => ?_, fun i x hx => ?_, rfl⟩, fun i => rfl⟩
  · rw [hlive]
    exact Multiset.nodup_zero
  · rw [hlive]
    exact Multiset.zero_disjoint _
  · rw [hlive]
    rfl
  · rw [hlive] at hx
    exact absurd hx (Multiset.notMem_zero x)

theorem sound_of_reachable (h : (system alignment).Reachable w) : Sound alignment w := by
  apply System.Reach.invariant (I := Sound alignment) _ _ h
  · intro s hs
    rw [hs]
    exact sound_start
  · intro s a s' hI _ hstep
    exact Step.sound hstep hI

/-! ## Ownership -/

/-- The buffers of a pool, and those that it has handed out. -/
def buffers (w : World ι) (i : ι) : Multiset Buffer :=
  ↑(w.pools i).pool_ + (w.handed.filter fun h => h.1 = i).map fun h => h.2

theorem live_eq_buffers (w : World ι) (i : ι) : w.lending.live i = (w.buffers i).map Buffer.block := by
  unfold Lending.State.live Lending.State.out buffers lending
  rw [Multiset.map_add, Multiset.filter_map, Multiset.map_map, Multiset.map_map]
  rfl

structure Owned (w : World ι) : Prop where
  /-- No buffer is pooled and handed out, or handed out twice. -/
  once : ∀ i, ((w.buffers i).map Buffer.data).Nodup
  /-- No buffer belongs to two pools. -/
  apart : ∀ i j, i ≠ j → Disjoint ((w.buffers i).map Buffer.data) ((w.buffers j).map Buffer.data)
  accounted : ∀ i, (w.pools i).total_allocated_.toNat = ((w.buffers i).map fun b => b.capacity.toNat).sum
  /-- Every buffer that was handed out has come back once, or is still out. -/
  returns : ∀ k, k < w.next → w.returned.count k + (w.handed.map fun h => h.2.serial).count k = 1

theorem Sound.owned (h : Sound alignment w) : Owned w := by
  have hlending := h.lending
  constructor
  case once =>
    intro i
    have hnodup := Lending.nodup_map_of_occupied PoolBlock.base_mem_addresses (hlending.nodup i)
    rw [live_eq_buffers, Multiset.map_map] at hnodup
    exact hnodup
  case apart =>
    intro i j hij
    have hplace : ∀ i x, x ∈ (w.buffers i).map Buffer.data →
        x ∈ Lending.occupied PoolBlock.addresses (w.lending.live i) := by
      intro i x hx
      obtain ⟨b, hb, rfl⟩ := Multiset.mem_map.mp hx
      rw [live_eq_buffers]
      exact Lending.mem_occupied.mpr ⟨b.block, Multiset.mem_map_of_mem _ hb, b.block.base_mem_addresses⟩
    rw [Multiset.disjoint_left]
    intro x hx hx'
    exact Multiset.disjoint_left.mp (hlending.apart i j hij) (hplace i x hx) (hplace j x hx')
  case accounted =>
    intro i
    have htotal := hlending.totals i
    rw [live_eq_buffers, Multiset.map_map] at htotal
    exact htotal
  case returns =>
    intro k hk
    have hloans : (w.returned : Multiset Nat) + (w.handed.map _).map _ = Multiset.range w.next := hlending.loans
    have hone : (Multiset.range w.next).count k = 1 :=
      Multiset.count_eq_one_of_mem (Multiset.nodup_range _) (Multiset.mem_range.mpr hk)
    rw [← hloans, Multiset.count_add, Multiset.coe_count, Multiset.map_map] at hone
    exact hone

/-- Whether the request fits is whether the rounded request does, unless the
    rounding wraps. -/
theorem Sound.align_up_le_iff (h : Sound alignment w) (hb : b ∈ (w.pools i).pool_) {n : UInt64}
    (hn : n.toNat + (alignment i).toNat ≤ 2 ^ 64) :
    MemoryPool.align_up n (w.pools i).alignment_ ≤ b.capacity ↔ n ≤ b.capacity := by
  have hblock := h.lending.good i _ (mem_live_of_pooled hb)
  obtain ⟨k, -, -, hk⟩ := hblock.aligned
  rw [h.alignments i, UInt64.le_iff_toNat_le, UInt64.le_iff_toNat_le]
  exact Alignment.align_le_iff hk hn hblock.multiple

/-- No buffer has room for a request whose rounding wraps. -/
theorem Sound.add_le_of_fits (h : Sound alignment w) (hb : b ∈ (w.pools i).pool_) {n : UInt64}
    (hfits : n ≤ b.capacity) : n.toNat + (alignment i).toNat ≤ 2 ^ 64 := by
  have hblock := h.lending.good i _ (mem_live_of_pooled hb)
  obtain ⟨k, -, hlt, hk⟩ := hblock.aligned
  have hle : b.capacity.toNat + (alignment i).toNat ≤ 2 ^ 64 := Alignment.add_le_of_dvd hk hlt hblock.multiple
  have hfits' := UInt64.le_iff_toNat_le.mp hfits
  omega

theorem Sound.fits_best_iff (h : Sound alignment w)
    (hacquire : (w.pools i).acquire nbytes ptr = .ok (buf, pool))
    (hreused : pool.pool_.length < (w.pools i).pool_.length) :
    MemoryPool.FitsBest (w.pools i).pool_ nbytes buf ↔ nbytes.toNat + (alignment i).toNat ≤ 2 ^ 64 := by
  cases MemoryPool.acquired_of_ok hacquire with
  | allocated _ _ => exact absurd hreused (Nat.lt_irrefl _)
  | reused hk hbest =>
    have hmem := List.mem_of_getElem? hk
    constructor
    · intro hfits
      exact h.add_le_of_fits hmem hfits.1
    · intro hn
      refine ⟨(h.align_up_le_iff hmem hn).mp hbest.1, fun b hb hb' => ?_⟩
      exact hbest.2 b hb ((h.align_up_le_iff hb hn).mpr hb')

/-- **The buffer pool**: buffers have one owner, the account is right, and every
    buffer comes back once. A buffer that is taken out of a pool is the smallest that
    has room for the request, exactly if rounding up the request does not wrap. -/
theorem pool_exact (h : (system alignment).Reachable w) :
    Owned w ∧
      ∀ i nbytes ptr buf pool, (w.pools i).acquire nbytes ptr = .ok (buf, pool) →
        pool.pool_.length < (w.pools i).pool_.length →
        (MemoryPool.FitsBest (w.pools i).pool_ nbytes buf ↔ nbytes.toNat + (alignment i).toNat ≤ 2 ^ 64) := by
  have hsound := sound_of_reachable h
  refine ⟨hsound.owned, fun i nbytes ptr buf pool hacquire hreused => ?_⟩
  exact hsound.fits_best_iff hacquire hreused

/-- One pool, after a buffer of 64 bytes was acquired and released. -/
theorem exists_pooled :
    ∃ w : World Unit, (system fun _ => 64).Reachable w ∧ w.pools () = ⟨64, [⟨64, 128, 0, 0⟩], 128⟩ := by
  have hstart : (system fun _ : Unit => 64).Reachable (start fun _ => 64) := .init rfl
  have hptr : (start fun _ : Unit => 64).Answers () 64 (some 64) := by
    intro data hdata
    cases hdata
    refine ⟨⟨6, by decide, by decide, by decide⟩, by decide, by decide, fun _ => ?_⟩
    exact (Multiset.zero_disjoint _).symm
  have hacquire : ((start fun _ : Unit => 64).pools ()).acquire 64 (some 64) = .ok (⟨64, 128, 64, 0⟩, ⟨64, [], 128⟩) := rfl
  have hacquired := System.Reach.step hstart trivial (Step.acquire hptr hacquire)
  have hreleased := System.Reach.step hacquired trivial (Step.release (k := 0) rfl)
  exact ⟨_, hreleased, rfl⟩

theorem pool_exact_pooled :
    ∃ w : World Unit, ∃ buf pool, (system fun _ => 64).Reachable w ∧ Owned w ∧
      (w.pools ()).acquire 100 none = .ok (buf, pool) ∧ MemoryPool.FitsBest (w.pools ()).pool_ 100 buf := by
  obtain ⟨w, hw, hpool⟩ := exists_pooled
  have hacquire : (w.pools ()).acquire 100 none = .ok (⟨64, 128, 128, 0⟩, ⟨64, [], 128⟩) := by
    rw [hpool]
    rfl
  have hexact := pool_exact hw
  refine ⟨w, _, _, hw, hexact.1, hacquire, (hexact.2 () 100 none _ _ hacquire ?_).mpr (by decide)⟩
  rw [hpool]
  decide

/-- The last byte count rounds up to 0, and a buffer of 128 bytes is handed out for
    it. -/
theorem small_buffer_reused :
    ∃ w : World Unit, ∃ buf pool, (system fun _ => 64).Reachable w ∧
      (w.pools ()).acquire 18446744073709551615 none = .ok (buf, pool) ∧
      pool.pool_.length < (w.pools ()).pool_.length ∧
      buf.capacity = 128 ∧ ¬MemoryPool.FitsBest (w.pools ()).pool_ 18446744073709551615 buf := by
  obtain ⟨w, hw, hpool⟩ := exists_pooled
  refine ⟨w, ⟨64, 128, 0, 0⟩, ⟨64, [], 128⟩, hw, ?_, ?_, rfl, fun hfits => ?_⟩
  · rw [hpool]
    rfl
  · rw [hpool]
    decide
  · exact absurd hfits.1 (by decide)

end World

end Mccl.Pooling
