import Mathlib.Data.List.Basic

/-! # Splitting by Index

    The loop of a hand-written splitter: from `i` on, look for the separator, take
    what is before it, and go on behind it, up to `stop`. Pieces without characters
    are taken only if `keep` says so.

    * `splitLoop_eq`: it finds the pieces of `List.splitOn`. An empty last piece
      ends the loop, so that nothing can be kept there. -/

namespace Splitting

variable {α : Type} [DecidableEq α]

/-- The position of `c` in `s` from `i` on (`std::string::find`). -/
def find (s : List α) (c : α) (i : Nat) : Option Nat :=
  let j := i + (s.drop i).idxOf c
  if j < s.length then some j else none

/-- The last position of `c` in `s` (`std::string::rfind`). -/
def rfind (s : List α) (c : α) : Option Nat :=
  let k := s.reverse.idxOf c
  if k < s.length then some (s.length - 1 - k) else none

/-- The `n` characters from `i` on. -/
def substr (s : List α) (i n : Nat) : List α := (s.drop i).take n

/-- The end of the piece: the separator if it is found before `stop`. -/
def pieceEnd (stop : Nat) : Option Nat → Nat
  | none => stop
  | some j => if j > stop then stop else j

variable {s before p rest tail : List α} {c sep : α} {stop i : Nat}

theorem rfind_append_cons (h : c ∉ rest) : rfind (p ++ c :: rest) c = some p.length := by
  have hidx : (p ++ c :: rest).reverse.idxOf c = rest.length := by
    rw [List.reverse_append, List.reverse_cons, List.append_assoc, List.idxOf_append_of_notMem (by simpa using h)]
    simp
  unfold rfind
  simp only [hidx, List.length_append, List.length_cons]
  rw [if_pos (by omega)]
  congr 1
  omega

theorem pieceEnd_some (stop j : Nat) : pieceEnd stop (some j) = min j stop := by
  show (if j > stop then stop else j) = min j stop
  split
  · omega
  · omega

theorem pieceEnd_find (hstop : stop ≤ s.length) :
    pieceEnd stop (find s c i) = min (i + (s.drop i).idxOf c) stop := by
  unfold find
  dsimp only
  split
  · exact pieceEnd_some stop _
  · show stop = _
    omega

theorem le_pieceEnd_find (hi : i ≤ stop) (s : List α) (c : α) : i ≤ pieceEnd stop (find s c i) := by
  unfold find
  dsimp only
  split
  · rw [pieceEnd_some]
    omega
  · exact hi

/-! ## The Loop -/

/-- The pieces from `i` on. -/
def splitLoop (keep : Bool) (sep : α) (s : List α) (stop i : Nat) : List (List α) :=
  if _h : i < stop then
    let j := pieceEnd stop (find s sep i)
    (if keep || j > i then [substr s i (j - i)] else []) ++ splitLoop keep sep s stop (j + 1)
  else []
termination_by stop - i
decreasing_by
  have hle := le_pieceEnd_find (Nat.le_of_lt _h) s sep
  omega

variable {keep : Bool}

theorem splitLoop_of_le (h : stop ≤ i) : splitLoop keep sep s stop i = [] := by
  rw [splitLoop, dif_neg (Nat.not_lt.mpr h)]

/-- One round, for a piece that ends where the search does. -/
theorem splitLoop_piece (hp : sep ∉ p) (hlt : before.length < stop)
    (hend : min (p.length + tail.idxOf sep) (stop - before.length) = p.length)
    (hstop : stop ≤ (before ++ (p ++ tail)).length) :
    splitLoop keep sep (before ++ (p ++ tail)) stop before.length =
      [p].filter (fun p => keep || !p.isEmpty) ++
        splitLoop keep sep (before ++ (p ++ tail)) stop (before.length + p.length + 1) := by
  have hj : pieceEnd stop (find (before ++ (p ++ tail)) sep before.length) = before.length + p.length := by
    rw [pieceEnd_find hstop, List.drop_left, List.idxOf_append_of_notMem hp]
    omega
  have hsubstr : substr (before ++ (p ++ tail)) before.length (before.length + p.length - before.length) = p := by
    rw [substr, Nat.add_sub_cancel_left, List.drop_left, List.take_left]
  have hempty : (!p.isEmpty) = decide (before.length + p.length > before.length) := by
    cases p with
    | nil => simp
    | cons => simp
  rw [splitLoop, dif_pos hlt]
  simp only [hj, hsubstr, hempty, List.filter_cons, List.filter_nil]

/-- **The loop finds the pieces**, wherever they stand in the string. -/
theorem splitLoop_eq (before body after : List α) (hkeep : keep = true → [] ∉ body.splitOn sep) :
    splitLoop keep sep (before ++ (body ++ after)) (before.length + body.length) before.length =
      (body.splitOn sep).filter fun p => keep || !p.isEmpty := by
  by_cases hsep : sep ∈ body
  · -- the pieces behind the first separator are those of a shorter string
    obtain ⟨p, rest, rfl, hp⟩ := List.eq_append_cons_of_mem hsep
    rw [List.splitOn_append_cons_self_of_not_mem hp] at hkeep ⊢
    have hrest := splitLoop_eq (before ++ p ++ [sep]) rest after fun hk h => hkeep hk (List.mem_cons_of_mem p h)
    have hs : before ++ (p ++ sep :: rest ++ after) = before ++ p ++ [sep] ++ (rest ++ after) := by simp
    have hnext : (before ++ p ++ [sep]).length = before.length + p.length + 1 := by simp [Nat.add_assoc]
    rw [← hs, hnext] at hrest
    rw [List.append_assoc p, List.cons_append] at hrest ⊢
    have hstop : before.length + (p ++ sep :: rest).length = before.length + p.length + 1 + rest.length := by
      simp only [List.length_append, List.length_cons]
      omega
    rw [hstop, splitLoop_piece hp (by omega) (by simp; omega) (by simp; omega), hrest, ← List.filter_append,
      List.singleton_append]
  · rw [List.splitOn_eq_singleton hsep] at hkeep ⊢
    by_cases hbody : body = []
    · subst hbody
      cases keep with
      | true => exact absurd List.mem_cons_self (hkeep rfl)
      | false => exact splitLoop_of_le (Nat.le_refl _)
    · have hpos := List.length_pos_iff.mpr hbody
      rw [splitLoop_piece hsep (by omega) (by omega) (by simp), splitLoop_of_le (Nat.le_succ _), List.append_nil]
termination_by body.length

end Splitting
