import Mathlib.Algebra.BigOperators.Group.List.Basic
import Mathlib.Data.List.Flatten
import Mathlib.Data.List.Range
import Mathlib.Tactic.Ring

/-! # Strided Layouts

    A layout gives for each dimension of an array its size and its stride, the
    distance in memory between neighbours along the dimension.

    * `addrs`: the addresses of the elements in row-major order.
    * `rowMajor`: the dense layout of a shape (`addrs_rowMajor`).
    * `narrow`: part of a dimension. If all dimensions before it have size one, the
      part is a segment of the elements (`addrs_narrow`).
    * `getLast?_addrs`: where the last element is. -/

namespace Strides

/-- Size and stride of each dimension. -/
abbrev Dims := List (Nat × Nat)

/-- The number of elements. -/
def numel (ds : Dims) : Nat := (ds.map Prod.fst).prod

/-- The addresses of the elements in row-major order, from address `o` on. -/
def addrs : Dims → Nat → List Nat
  | [], o => [o]
  | (size, stride) :: ds, o => (List.range size).flatMap fun i => addrs ds (o + i * stride)

/-- The dense layout of an array of the given shape. -/
def rowMajor : List Nat → Dims
  | [] => []
  | size :: shape => (size, shape.prod) :: rowMajor shape

/-- The layout with another size of dimension `dim`. -/
def narrow : Dims → Nat → Nat → Dims
  | [], _, _ => []
  | (_, stride) :: ds, 0, length => (length, stride) :: ds
  | d :: ds, dim + 1, length => d :: narrow ds dim length

/-- Size of a dimension. -/
def size (ds : Dims) (dim : Nat) : Nat := (ds[dim]?.map Prod.fst).getD 0

def stride (ds : Dims) (dim : Nat) : Nat := (ds[dim]?.map Prod.snd).getD 0

/-- The number of elements in the dimensions before `dim`. -/
def outer (ds : Dims) (dim : Nat) : Nat := numel (ds.take dim)

/-- The number of elements in the dimensions after `dim`. -/
def inner (ds : Dims) (dim : Nat) : Nat := numel (ds.drop (dim + 1))

/-- The number of elements, if they are densely packed; strides along dimensions of
    size one do not matter. -/
def dense : Dims → Option Nat
  | [] => some 1
  | (size, stride) :: ds =>
    match dense ds with
    | some n => if size = 1 ∨ stride = n then some (size * n) else none
    | none => none

/-! ## Counting -/

@[simp] theorem numel_nil : numel [] = 1 := rfl

@[simp] theorem numel_cons (d : Nat × Nat) (ds : Dims) : numel (d :: ds) = d.1 * numel ds := rfl

@[simp] theorem numel_rowMajor (shape : List Nat) : numel (rowMajor shape) = shape.prod := by
  induction shape with
  | nil => rfl
  | cons size shape ih => rw [rowMajor, numel_cons, ih, List.prod_cons]

@[simp] theorem map_fst_rowMajor (shape : List Nat) : (rowMajor shape).map Prod.fst = shape := by
  induction shape with
  | nil => rfl
  | cons size shape ih => rw [rowMajor, List.map_cons, ih]

theorem length_flatMap_range {α : Type} {f : Nat → List α} {c : Nat} (hf : ∀ i, (f i).length = c) (n : Nat) :
    ((List.range n).flatMap f).length = n * c := by
  induction n with
  | zero => simp
  | succ n ih =>
    rw [List.range_succ, List.flatMap_append, List.length_append, ih, List.flatMap_singleton, hf]
    ring

@[simp] theorem length_addrs (ds : Dims) (o : Nat) : (addrs ds o).length = numel ds := by
  induction ds generalizing o with
  | nil => rfl
  | cons d ds ih => exact length_flatMap_range (fun i => ih _) d.1

variable {ds : Dims} {dim length : Nat} {shape : List Nat}

theorem numel_eq (h : dim < ds.length) :
    numel ds = outer ds dim * size ds dim * inner ds dim := by
  induction ds generalizing dim with
  | nil => simp at h
  | cons d ds ih =>
    cases dim with
    | zero => simp [outer, size, inner]
    | succ dim =>
      have hrest := ih (Nat.lt_of_succ_lt_succ h)
      rw [numel_cons, hrest]
      simp only [outer, size, inner, List.take_succ_cons, List.drop_succ_cons, numel_cons,
        List.getElem?_cons_succ]
      ring

theorem numel_narrow (h : dim < ds.length) (length : Nat) :
    numel (narrow ds dim length) = outer ds dim * length * inner ds dim := by
  induction ds generalizing dim with
  | nil => simp at h
  | cons d ds ih =>
    cases dim with
    | zero => simp [narrow, outer, inner]
    | succ dim =>
      have hrest := ih (Nat.lt_of_succ_lt_succ h)
      rw [narrow, numel_cons, hrest]
      simp only [outer, inner, List.take_succ_cons, List.drop_succ_cons, numel_cons]
      ring

theorem narrow_size : narrow ds dim (size ds dim) = ds := by
  induction ds generalizing dim with
  | nil => rfl
  | cons d ds ih =>
    cases dim with
    | zero => rfl
    | succ dim =>
      rw [narrow]
      exact congrArg (d :: ·) ih

/-! ## Segments -/

theorem segment_flatMap {α : Type} {f : Nat → List α} {c : Nat} (hf : ∀ i, (f i).length = c)
    {n start : Nat} (h : start + length ≤ n) :
    (((List.range n).flatMap f).drop (start * c)).take (length * c) =
      (List.range length).flatMap fun i => f (start + i) := by
  obtain ⟨rest, rfl⟩ := Nat.exists_eq_add_of_le h
  rw [List.range_add, List.range_add, List.flatMap_append, List.flatMap_append, List.append_assoc,
    List.drop_left' (length_flatMap_range hf start), List.flatMap_map,
    List.take_left' (length_flatMap_range (fun i => hf (start + i)) length)]

/-- The elements of a part of a dimension, if the dimensions before have size one. -/
theorem addrs_narrow (h : dim < ds.length) (houter : outer ds dim = 1)
    {start : Nat} (hle : start + length ≤ size ds dim) (o : Nat) :
    addrs (narrow ds dim length) (o + start * stride ds dim) =
      ((addrs ds o).drop (start * inner ds dim)).take (length * inner ds dim) := by
  induction ds generalizing dim o with
  | nil => simp at h
  | cons d ds ih =>
    cases dim with
    | zero =>
      have hblock : ∀ i, (addrs ds (o + i * d.2)).length = numel ds := fun i => length_addrs ds _
      show (List.range length).flatMap (fun i => addrs ds (o + start * d.2 + i * d.2)) =
        (((List.range d.1).flatMap fun i => addrs ds (o + i * d.2)).drop (start * numel ds)).take
          (length * numel ds)
      have hle' : start + length ≤ d.1 := hle
      rw [segment_flatMap hblock hle']
      apply congrArg (List.flatMap · (List.range length))
      funext i
      rw [Nat.add_mul, Nat.add_assoc]
    | succ dim =>
      have hone : d.1 = 1 ∧ outer ds dim = 1 :=
        ⟨Nat.eq_one_of_mul_eq_one_right houter, Nat.eq_one_of_mul_eq_one_left houter⟩
      have hrest := ih (Nat.lt_of_succ_lt_succ h) hone.2 hle o
      obtain ⟨sz, st⟩ := d
      obtain rfl : sz = 1 := hone.1
      -- one block, the elements of the remaining dimensions
      have hblock : ∀ ds' o', addrs ((1, st) :: ds') o' = addrs ds' o' := by
        intro ds' o'
        simp [addrs]
      rw [narrow, hblock, hblock]
      exact hrest

/-- The blocks of a dense layout follow each other. -/
theorem flatMap_range' (o c n : Nat) : (List.range n).flatMap (fun i => List.range' (o + i * c) c) =
    List.range' o (n * c) := by
  induction n with
  | zero => simp
  | succ n ih =>
    rw [List.range_succ, List.flatMap_append, ih, List.flatMap_singleton, Nat.succ_mul, List.range'_append_1]

theorem addrs_rowMajor (shape : List Nat) (o : Nat) : addrs (rowMajor shape) o = List.range' o shape.prod := by
  induction shape generalizing o with
  | nil => rfl
  | cons size shape ih =>
    show (List.range size).flatMap (fun i => addrs (rowMajor shape) (o + i * shape.prod)) = _
    simp only [ih]
    rw [flatMap_range', List.prod_cons]

/-! ## The Last Element -/

/-- The distance between the first and the last element. -/
def extent (ds : Dims) : Nat := (ds.map fun d => (d.1 - 1) * d.2).sum

theorem getLast?_addrs (h : 0 < numel ds) (o : Nat) :
    (addrs ds o).getLast? = some (o + extent ds) := by
  induction ds generalizing o with
  | nil => rfl
  | cons d ds ih =>
    obtain ⟨sz, st⟩ := d
    have hds : 0 < numel ds := Nat.pos_of_mul_pos_left h
    obtain ⟨n, rfl⟩ : ∃ n, sz = n + 1 := Nat.exists_eq_succ_of_ne_zero (Nat.pos_of_mul_pos_right h).ne'
    show ((List.range (n + 1)).flatMap fun i => addrs ds (o + i * st)).getLast? = _
    rw [List.range_succ, List.flatMap_append, List.flatMap_singleton, List.getLast?_append, ih hds]
    show some (o + n * st + extent ds) = some (o + (n * st + extent ds))
    rw [Nat.add_assoc]

theorem extent_rowMajor (h : 0 < shape.prod) : extent (rowMajor shape) = shape.prod - 1 := by
  induction shape with
  | nil => rfl
  | cons size shape ih =>
    have hshape : 0 < shape.prod := Nat.pos_of_mul_pos_left h
    obtain ⟨n, rfl⟩ : ∃ n, size = n + 1 := Nat.exists_eq_succ_of_ne_zero (Nat.pos_of_mul_pos_right h).ne'
    show n * shape.prod + extent (rowMajor shape) = (n + 1) * shape.prod - 1
    rw [ih hshape, Nat.succ_mul]
    omega

theorem extent_narrow (h : dim < ds.length) (hpos : 0 < length) (hle : length ≤ size ds dim) :
    extent (narrow ds dim length) + (size ds dim - length) * stride ds dim = extent ds := by
  induction ds generalizing dim with
  | nil => simp at h
  | cons d ds ih =>
    cases dim with
    | zero =>
      have hle' : length ≤ d.1 := hle
      have hsplit : d.1 - 1 = (length - 1) + (d.1 - length) := by omega
      show (length - 1) * d.2 + extent ds + (d.1 - length) * d.2 = (d.1 - 1) * d.2 + extent ds
      rw [hsplit, Nat.add_mul]
      omega
    | succ dim =>
      have hrest := ih (Nat.lt_of_succ_lt_succ h) hle
      show (d.1 - 1) * d.2 + extent (narrow ds dim length) + (size ds dim - length) * stride ds dim =
        (d.1 - 1) * d.2 + extent ds
      rw [Nat.add_assoc, hrest]

theorem stride_rowMajor (h : dim < shape.length) :
    stride (rowMajor shape) dim = inner (rowMajor shape) dim := by
  induction shape generalizing dim with
  | nil => simp at h
  | cons size shape ih =>
    cases dim with
    | zero =>
      show shape.prod = numel (rowMajor shape)
      rw [numel_rowMajor]
    | succ dim => exact ih (Nat.lt_of_succ_lt_succ h)

/-! ## Dense Layouts -/

theorem dense_rowMajor (shape : List Nat) : dense (rowMajor shape) = some shape.prod := by
  induction shape with
  | nil => rfl
  | cons size shape ih => simp [rowMajor, dense, ih]

/-- A part of a dimension is dense if the dimensions before have size one. -/
theorem dense_narrow_rowMajor (h : outer (rowMajor shape) dim = 1) (length : Nat) :
    (dense (narrow (rowMajor shape) dim length)).isSome := by
  induction shape generalizing dim with
  | nil => rfl
  | cons size shape ih =>
    cases dim with
    | zero => simp [rowMajor, narrow, dense, dense_rowMajor]
    | succ dim =>
      have hone : size = 1 ∧ outer (rowMajor shape) dim = 1 :=
        ⟨Nat.eq_one_of_mul_eq_one_right h, Nat.eq_one_of_mul_eq_one_left h⟩
      obtain ⟨n, hn⟩ := Option.isSome_iff_exists.mp (ih hone.2)
      simp [rowMajor, narrow, dense, hn, hone.1]

end Strides
