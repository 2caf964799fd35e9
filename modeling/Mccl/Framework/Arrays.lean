import Mathlib.Data.List.Lattice
import Mathlib.Data.List.Nodup
import Mathlib.Data.List.Range
import Mathlib.Tactic.Ring

/-! # Arrays in Byte Memory

    A byte memory maps addresses, a buffer and an offset in it, to bytes.
    This file relates byte ranges to arrays of elements of a fixed size.

    * `span`: the addresses of a byte range.
    * `Codec`: how an element is laid out in bytes.
    * `elem`, `store`: read one element, write an array.
    * `copy`, `fill`: `memcpy` and `memset`.
    * `byteAt`, `ofBytes`: numbers as bytes, the least significant first. -/

namespace Arrays

variable {B α β : Type}

/-! ## Byte ranges -/

/-- The `len` addresses from `a` on. -/
def span (a : B × Nat) (len : Nat) : List (B × Nat) := (List.range len).map fun j => (a.1, a.2 + j)

@[simp] theorem length_span (a : B × Nat) (len : Nat) : (span a len).length = len := by
  simp [span]

variable {len n i : Nat} {a x : B × Nat} {m m' : B × Nat → β} {v : Nat → α}

theorem span_ne_nil (a : B × Nat) (h : 0 < len) : span a len ≠ [] :=
  List.ne_nil_of_length_pos (by rwa [length_span])

@[simp] theorem span_zero (a : B × Nat) : span a 0 = [] := rfl

theorem getElem?_span (a : B × Nat) {j : Nat} (h : j < len) :
    (span a len)[j]? = some (a.1, a.2 + j) := by
  simp [span, h]

theorem mem_span :
    x ∈ span a len ↔ x.1 = a.1 ∧ a.2 ≤ x.2 ∧ x.2 < a.2 + len := by
  constructor
  · intro h
    obtain ⟨j, hj, rfl⟩ := List.mem_map.mp h
    have := List.mem_range.mp hj
    exact ⟨rfl, by simp, by simpa using this⟩
  · rintro ⟨hb, hle, hlt⟩
    refine List.mem_map.mpr ⟨x.2 - a.2, List.mem_range.mpr (by omega), ?_⟩
    exact Prod.ext hb.symm (by simp only; omega)

theorem nodup_span (a : B × Nat) (len : Nat) : (span a len).Nodup := by
  refine List.Nodup.map (fun i j h => ?_) List.nodup_range
  simpa using h

theorem disjoint_span_of_ne {b : B × Nat} (n m : Nat) (h : a.1 ≠ b.1) :
    List.Disjoint (span a n) (span b m) := by
  intro x hx hy
  rw [mem_span] at hx hy
  exact h (hx.1.symm.trans hy.1)

theorem disjoint_span_of_le {b : B × Nat} (m : Nat) (h : a.2 + n ≤ b.2) :
    List.Disjoint (span a n) (span b m) := by
  intro x hx hy
  rw [mem_span] at hx hy
  omega

/-! ## Elements -/

/-- The layout of an element in `size` bytes. -/
structure Codec (α β : Type) where
  size : Nat
  size_pos : 0 < size
  enc : α → Fin size → β
  dec : (Fin size → β) → α
  dec_enc : ∀ x, dec (enc x) = x

variable (c : Codec α β)

/-- Element `i` of the array at `a`. -/
def elem (m : B × Nat → β) (a : B × Nat) (i : Nat) : α :=
  c.dec fun b => m (a.1, a.2 + (i * c.size + b))

variable {c}

theorem elem_congr {a' : B × Nat} {i' : Nat}
    (h : ∀ j < c.size, m' (a'.1, a'.2 + (i' * c.size + j)) = m (a.1, a.2 + (i * c.size + j))) :
    elem c m' a' i' = elem c m a i :=
  congrArg c.dec (funext fun b => h b b.isLt)

/-- The bytes of element `i` are inside those of an array of `n > i` elements. -/
theorem index_lt {j : Nat} (hi : i < n) (hj : j < c.size) :
    i * c.size + j < n * c.size := by
  calc i * c.size + j < i * c.size + c.size := by omega
    _ = (i + 1) * c.size := by ring
    _ ≤ n * c.size := Nat.mul_le_mul_right _ hi

theorem elem_of_bytes {a' : B × Nat}
    (h : ∀ j < n * c.size, m' (a'.1, a'.2 + j) = m (a.1, a.2 + j)) (hi : i < n) :
    elem c m' a' i = elem c m a i :=
  elem_congr fun j hj => h (i * c.size + j) (index_lt hi hj)

theorem elem_of_frame
    (h : ∀ x ∈ span (a.1, a.2 + i * c.size) c.size, m' x = m x) : elem c m' a i = elem c m a i := by
  refine elem_congr fun j hj => h _ (mem_span.mpr ⟨rfl, ?_, ?_⟩)
  · simp only; omega
  · simp only; omega

theorem elem_offset (m : B × Nat → β) (a : B × Nat) (s i : Nat) :
    elem c m (a.1, a.2 + s * c.size) i = elem c m a (s + i) := by
  refine elem_congr fun j _ => ?_
  simp only
  congr 2
  ring

/-! ## Writing arrays -/

variable [DecidableEq B]

variable (c) in
/-- Write the elements `v 0`, ..., `v (n - 1)` to the array at `a`. -/
def store (m : B × Nat → β) (a : B × Nat) (n : Nat) (v : Nat → α) : B × Nat → β := fun x =>
  if x.1 = a.1 ∧ a.2 ≤ x.2 ∧ x.2 < a.2 + n * c.size then
    c.enc (v ((x.2 - a.2) / c.size)) ⟨(x.2 - a.2) % c.size, Nat.mod_lt _ c.size_pos⟩
  else m x

theorem store_frame (h : x ∉ span a (n * c.size)) : store c m a n v x = m x :=
  if_neg fun hx => h (mem_span.mpr hx)

theorem store_of_ne (h : x.1 ≠ a.1) : store c m a n v x = m x :=
  if_neg fun hx => h hx.1

theorem elem_store (hi : i < n) :
    elem c (store c m a n v) a i = v i := by
  rw [elem, ← c.dec_enc (v i)]
  congr 1
  funext b
  have hlt := index_lt (c := c) hi b.isLt
  have hdiv : (i * c.size + b) / c.size = i := by
    rw [Nat.mul_comm, Nat.mul_add_div c.size_pos, Nat.div_eq_of_lt b.isLt, Nat.add_zero]
  have hmod : (i * c.size + b) % c.size = b := by
    rw [Nat.mul_comm, Nat.mul_add_mod, Nat.mod_eq_of_lt b.isLt]
  rw [store, if_pos ⟨rfl, Nat.le_add_right _ _, by simpa using hlt⟩]
  simp only [Nat.add_sub_cancel_left, hdiv, hmod]

theorem elem_store_offset (m : B × Nat → β) (a : B × Nat) (s n i : Nat) (v : Nat → α) :
    elem c (store c m (a.1, a.2 + s * c.size) n v) a i =
      if s ≤ i ∧ i < s + n then v (i - s) else elem c m a i := by
  split
  case isTrue h =>
    rw [show i = s + (i - s) by omega, ← elem_offset, elem_store (by omega)]
    congr 1
    omega
  case isFalse h =>
    refine elem_of_frame fun x hx => store_frame fun hx' => h ?_
    rw [mem_span] at hx hx'
    obtain ⟨-, h1, h2⟩ := hx
    obtain ⟨-, h3, h4⟩ := hx'
    simp only at h1 h2 h3 h4
    have hlo : s * c.size < (i + 1) * c.size := by
      rw [Nat.add_mul]
      omega
    have hhi : i * c.size < (s + n) * c.size := by
      rw [Nat.add_mul]
      omega
    have := Nat.lt_of_mul_lt_mul_right hlo
    have := Nat.lt_of_mul_lt_mul_right hhi
    omega

theorem elem_store_eq (m : B × Nat → β) (a : B × Nat) (n i : Nat) (v : Nat → α) :
    elem c (store c m a n v) a i = if i < n then v i else elem c m a i := by
  simpa using elem_store_offset (c := c) m a 0 n i v

/-! ## Copying and filling -/

section copy

/-- Copy `n` bytes from `src` to `dst`. -/
def copy (m : B × Nat → β) (dst src : B × Nat) (n : Nat) : B × Nat → β := fun x =>
  if x.1 = dst.1 ∧ dst.2 ≤ x.2 ∧ x.2 < dst.2 + n then m (src.1, src.2 + (x.2 - dst.2)) else m x

theorem copy_at (m : B × Nat → β) (dst src : B × Nat) {n j : Nat} (hj : j < n) :
    copy m dst src n (dst.1, dst.2 + j) = m (src.1, src.2 + j) := by
  simp [copy, hj]

variable {m : B × Nat → β}

theorem copy_frame {dst src x : B × Nat} {n : Nat} (h : x ∉ span dst n) :
    copy m dst src n x = m x :=
  if_neg fun hx => h (mem_span.mpr hx)

theorem copy_of_ne {dst src x : B × Nat} {n : Nat} (h : x.1 ≠ dst.1) :
    copy m dst src n x = m x :=
  if_neg fun hx => h hx.1

theorem map_span_copy (m : B × Nat → β) (dst src : B × Nat) (n : Nat) :
    (span dst n).map (copy m dst src n) = (span src n).map m := by
  simp only [span, List.map_map]
  refine List.map_congr_left fun j hj => ?_
  exact copy_at m dst src (List.mem_range.mp hj)

theorem copy_self (m : B × Nat → β) (a : B × Nat) (n : Nat) : copy m a a n = m := by
  funext x
  unfold copy
  split
  · rename_i h
    rw [← h.1, Nat.add_sub_cancel' h.2.1]
  · rfl

/-- Set `n` bytes from `a` on to `b`. -/
def fill (m : B × Nat → β) (a : B × Nat) (n : Nat) (b : β) : B × Nat → β := fun x =>
  if x.1 = a.1 ∧ a.2 ≤ x.2 ∧ x.2 < a.2 + n then b else m x

theorem fill_of_ne {a x : B × Nat} {n : Nat} {b : β} (h : x.1 ≠ a.1) :
    fill m a n b x = m x :=
  if_neg fun hx => h hx.1

end copy

/-! ## Numbers in bytes -/

/-- Byte `k` of `x`. -/
def byteAt (x k : Nat) : UInt8 := UInt8.ofNat (x / 256 ^ k)

/-- The number whose `n` bytes are `b 0`, `b 1`, .... -/
def ofBytes : Nat → (Nat → UInt8) → Nat
  | 0, _ => 0
  | n + 1, b => (b 0).toNat + 256 * ofBytes n fun k => b (k + 1)

theorem ofBytes_byteAt (n x : Nat) : ofBytes n (byteAt x) = x % 256 ^ n := by
  induction n generalizing x with
  | zero => simp [ofBytes, Nat.mod_one]
  | succ n ih =>
    have hshift : (fun k => byteAt x (k + 1)) = byteAt (x / 256) := by
      funext k
      rw [byteAt, byteAt, Nat.pow_succ', Nat.div_div_eq_div_mul]
    rw [ofBytes, hshift, ih, Nat.pow_succ', Nat.mod_mul]
    simp [byteAt]

theorem ofBytes_zero (n : Nat) : ofBytes n (fun _ => 0) = 0 := by
  induction n with
  | zero => rfl
  | succ n ih =>
    rw [ofBytes, ih]
    rfl

theorem ofBytes_congr {b b' : Nat → UInt8} (h : ∀ k < n, b k = b' k) :
    ofBytes n b = ofBytes n b' := by
  induction n generalizing b b' with
  | zero => rfl
  | succ n ih =>
    rw [ofBytes, ofBytes, h 0 (Nat.succ_pos n), ih fun k hk => h (k + 1) (Nat.succ_lt_succ hk)]

/-- The first `n` bytes of `x`. -/
def littleEndian (n x : Nat) : List UInt8 := (List.range n).map (byteAt x)

@[simp] theorem length_littleEndian (n x : Nat) : (littleEndian n x).length = n := by simp [littleEndian]

/-- The number in the `n` bytes at offset `o`. -/
def readAt (n o : Nat) (bytes : List UInt8) : Nat := ofBytes n fun k => bytes.getD (o + k) 0

/-- A number is read back from where it stands. -/
theorem readAt_append {o x : Nat} (before after : List UInt8) (ho : before.length = o) (hx : x < 256 ^ n) :
    readAt n o (before ++ (littleEndian n x ++ after)) = x := by
  have hbytes : readAt n o (before ++ (littleEndian n x ++ after)) = ofBytes n (byteAt x) := by
    refine ofBytes_congr fun k hk => ?_
    rw [List.getD_eq_getElem?_getD, List.getElem?_append_right (by omega),
      List.getElem?_append_left (by simp; omega)]
    simp [littleEndian, ho, hk]
  rw [hbytes, ofBytes_byteAt, Nat.mod_eq_of_lt hx]

end Arrays
