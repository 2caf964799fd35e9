import Mathlib.Data.Nat.Bitwise
import Mathlib.Data.Nat.Log
import Mccl.Backend.AllreduceGroup

/-! # The Tree Allreduce

    With masks `2 ^ 0`, `2 ^ 1`, ... below the number of ranks, the first phase
    combines blocks: before mask `2 ^ j`, a rank `r` that is a multiple of
    `2 ^ j` has combined the inputs of the ranks from `r` up to
    `r + 2 ^ j`, as far as they exist (`treeReduced_combines`). The second phase goes
    through the masks in the opposite order and copies the value of rank 0:
    after mask `2 ^ j` all multiples of `2 ^ j` have it (`treeBroadcast_eq`).

    A rank that is not a multiple of `2 ^ j` is the one that is no longer
    active, so the early exit of the source is the loop over all masks
    (`tree_reduce_cons`). -/

namespace Mccl

open ForkJoin Arrays Reduction

/-! ## Masks -/

section masks
variable {w : Nat}

theorem masksUp_eq (fuel j : Nat) (h : Nat.clog 2 w ≤ j + fuel) :
    masksUp w fuel (2 ^ j) = (List.range' j (Nat.clog 2 w - j)).map (2 ^ ·) := by
  induction fuel generalizing j with
  | zero => simp [masksUp, show Nat.clog 2 w - j = 0 by omega]
  | succ fuel ih =>
    rw [masksUp]
    by_cases hlt : 2 ^ j < w
    · have hj : j < Nat.clog 2 w := (Nat.lt_clog_iff_pow_lt one_lt_two).mpr hlt
      rw [if_pos hlt, Nat.shiftLeft_eq, ← pow_add, ih _ (by omega),
        show Nat.clog 2 w - j = Nat.clog 2 w - (j + 1) + 1 by omega, List.range'_succ, List.map_cons]
    · have hj : ¬ j < Nat.clog 2 w := fun h => hlt ((Nat.lt_clog_iff_pow_lt one_lt_two).mp h)
      rw [if_neg hlt, show Nat.clog 2 w - j = 0 by omega]
      rfl

theorem topMask_eq (fuel j : Nat) (hj : j < Nat.clog 2 w) (h : Nat.clog 2 w ≤ j + fuel) :
    topMask w fuel (2 ^ j) = 2 ^ (Nat.clog 2 w - 1) := by
  induction fuel generalizing j with
  | zero => omega
  | succ fuel ih =>
    rw [topMask, ← pow_succ]
    by_cases hlt : 2 ^ (j + 1) < w
    · rw [if_pos hlt, Nat.shiftLeft_eq, ← pow_add]
      exact ih _ ((Nat.lt_clog_iff_pow_lt one_lt_two).mpr hlt) (by omega)
    · have hj' : ¬ j + 1 < Nat.clog 2 w := fun h => hlt ((Nat.lt_clog_iff_pow_lt one_lt_two).mp h)
      rw [if_neg hlt, show Nat.clog 2 w - 1 = j by omega]

theorem masksDown_eq (fuel j : Nat) (h : j < fuel) :
    masksDown fuel (2 ^ j) = (List.range (j + 1)).map fun i => 2 ^ (j - i) := by
  induction j generalizing fuel with
  | zero =>
    obtain ⟨fuel, rfl⟩ : ∃ n, fuel = n + 1 := ⟨fuel - 1, by omega⟩
    cases fuel <;> simp [masksDown, List.range_succ]
  | succ j ih =>
    obtain ⟨fuel, rfl⟩ : ∃ n, fuel = n + 1 := ⟨fuel - 1, by omega⟩
    have hrange : List.range (j + 1 + 1) = 0 :: (List.range (j + 1)).map Nat.succ :=
      List.range_succ_eq_map
    have hhalf : 2 ^ (j + 1) >>> 1 = 2 ^ j := by
      rw [Nat.shiftRight_eq_div_pow, pow_one, pow_succ, Nat.mul_div_cancel _ two_pos]
    rw [masksDown, if_pos Nat.one_le_two_pow, hhalf, ih _ (by omega), hrange, List.map_cons,
      List.map_map]
    simp [Function.comp_def]

theorem clog_le_self (w : Nat) : Nat.clog 2 w ≤ w := Nat.clog_le_of_le_pow (Nat.le_of_lt Nat.lt_two_pow_self)

/-- A multiple of `2 ^ j` has bit `j` set or is a multiple of `2 ^ (j + 1)`. -/
theorem and_two_pow_ne_zero_iff {r j : Nat} (h : r % 2 ^ j = 0) :
    r &&& 2 ^ j ≠ 0 ↔ r % (2 ^ j * 2) = 2 ^ j := by
  have hpos : 0 < 2 ^ j := Nat.two_pow_pos j
  have hmod := Nat.mod_mul (x := r) (a := 2 ^ j) (b := 2)
  rw [Nat.and_two_pow, Nat.testBit_eq_decide_div_mod_eq, hmod, h]
  rcases Nat.mod_two_eq_zero_or_one (r / 2 ^ j) with h2 | h2
  · simp [h2, hpos.ne]
  · simp [h2]

theorem mod_double {r m : Nat} (h : r % m = 0) : r % (m * 2) = 0 ∨ r % (m * 2) = m := by
  have hmod := Nat.mod_mul (x := r) (a := m) (b := 2)
  rcases Nat.mod_two_eq_zero_or_one (r / m) with h2 | h2
  · left
    rw [hmod, h, h2]
    rfl
  · right
    rw [hmod, h, h2]
    omega

theorem mod_of_mod_double {r m : Nat} (h : r % (m * 2) = 0 ∨ r % (m * 2) = m) : r % m = 0 := by
  rw [← Nat.mod_mul_right_mod r m 2]
  rcases h with h | h <;> simp [h]

/-- The partner of a rank whose lowest bit is the mask. -/
theorem sub_mod_double {r m : Nat} (hm : 0 < m) (h : r % (m * 2) = m) :
    m ≤ r ∧ (r - m) % (m * 2) = 0 := by
  refine ⟨h ▸ Nat.mod_le _ _, Nat.sub_mod_eq_zero_of_mod_eq ?_⟩
  rw [h, Nat.mod_eq_of_lt (by omega)]

theorem add_mod_double {r m : Nat} (hm : 0 < m) (h : r % (m * 2) = 0) :
    (r + m) % (m * 2) = m := by
  rw [Nat.add_mod, h, Nat.zero_add, Nat.mod_mod, Nat.mod_eq_of_lt (by omega)]

end masks

/-! ## Values -/

section values
variable {α : Type} {op : α → α → α} {x : Nat → α} {w : Nat}

/-- The values of all ranks before mask `2 ^ j` of the first phase. -/
def treeReduced (op : α → α → α) (x : Nat → α) (w : Nat) : Nat → Nat → α
  | 0, r => x r
  | j + 1, r =>
    if r % (2 ^ j * 2) = 0 ∧ r + 2 ^ j < w then
      op (treeReduced op x w j r) (treeReduced op x w j (r + 2 ^ j))
    else treeReduced op x w j r

/-- The values of all ranks after the `i` largest of the masks
    `2 ^ 0`, ..., `2 ^ (n - 1)` of the second phase. -/
def treeBroadcast (y : Nat → α) (n : Nat) : Nat → Nat → α
  | 0, r => y r
  | i + 1, r =>
    if r % (2 ^ (n - 1 - i) * 2) = 2 ^ (n - 1 - i) then
      treeBroadcast y n i (r - 2 ^ (n - 1 - i))
    else treeBroadcast y n i r

/-- All ranks end with the value of rank 0. -/
theorem treeBroadcast_eq {y : Nat → α} {n i : Nat} (hn : w ≤ 2 ^ n) (hi : i ≤ n) {r : Nat}
    (hr : r < w) (hmod : r % 2 ^ (n - i) = 0) : treeBroadcast y n i r = y 0 := by
  induction i generalizing r with
  | zero =>
    have : r = 0 := by rwa [Nat.sub_zero, Nat.mod_eq_of_lt (by omega)] at hmod
    rw [treeBroadcast, this]
  | succ i ih =>
    have hexp : n - i = n - 1 - i + 1 := by omega
    rw [show n - (i + 1) = n - 1 - i by omega] at hmod
    rw [hexp, pow_succ] at ih
    rw [treeBroadcast]
    split
    case isTrue h =>
      have hpartner := sub_mod_double (Nat.two_pow_pos _) h
      exact ih (by omega) (by omega) hpartner.2
    case isFalse h => exact ih (by omega) hr ((mod_double hmod).resolve_right h)

/-- The block of inputs that a rank has combined. -/
theorem treeReduced_combines {j r : Nat} (hr : r < w) (hmod : r % 2 ^ j = 0) :
    Combines op x (List.range' r (min (2 ^ j) (w - r))) (treeReduced op x w j r) := by
  induction j generalizing r with
  | zero =>
    rw [show min (2 ^ 0) (w - r) = 1 by rw [pow_zero]; omega]
    exact .value r
  | succ j ih =>
    rw [pow_succ] at hmod ⊢
    have hj := mod_of_mod_double (.inl hmod)
    have hpos := Nat.two_pow_pos j
    rw [treeReduced]
    by_cases hlt : r + 2 ^ j < w
    · -- The partner's block comes right after this one.
      have hown := ih hr hj
      have hpartner := ih hlt (by rw [Nat.add_mod_right, hj])
      rw [show min (2 ^ j) (w - r) = 2 ^ j by omega] at hown
      rw [if_pos ⟨hmod, hlt⟩,
        show min (2 ^ j * 2) (w - r) = 2 ^ j + min (2 ^ j) (w - (r + 2 ^ j)) by omega,
        ← List.range'_append_1]
      exact .combine hown hpartner
    · rw [if_neg fun h => hlt h.2, show min (2 ^ j * 2) (w - r) = min (2 ^ j) (w - r) by omega]
      exact ih hr hj

/-- Rank 0 ends with the block of all inputs. -/
theorem treeReduced_combines_all {n : Nat} (hw : 0 < w) (hn : w ≤ 2 ^ n) :
    Combines op x (List.range w) (treeReduced op x w n 0) := by
  have hblock : Combines op x _ (treeReduced op x w n 0) := treeReduced_combines hw (Nat.zero_mod _)
  rwa [Nat.sub_zero, Nat.min_eq_right hn, ← List.range_eq_range'] at hblock

theorem treeReduced_eq_reduce (hcomm : Std.Commutative op) (hassoc : Std.Associative op)
    {n : Nat} (hw : 0 < w) (hn : w ≤ 2 ^ n) : treeReduced op x w n 0 = reduce op x (w - 1) := by
  apply Combines.eq_reduce hcomm hassoc
  rw [Nat.sub_add_cancel hw]
  exact treeReduced_combines_all hw hn

end values

/-! ## Programs -/

namespace AllreduceGroup

variable {β : Type} {D : Device β} {ω : Type} {f : Format} {k : BinaryOp} {cap : ℕ∞}
  (G : AllreduceGroup)

/-- The bytes of a tensor at `a`. -/
def wholeSpan (a : Addr) : List Addr := span a (G.numel * G.dtype.elementSize)

theorem nbytes_eq {r : Nat} (hr : r < G.world) :
    (G.args r).nbytes = G.numel * G.dtype.elementSize := by
  rw [AllreduceArgs.nbytes, G.numel_eq r hr, G.esize_eq hr]

theorem tree_reduce_inactive (args : AllreduceArgs) (op : RedOpType) (rank world : Nat)
    (masks : List Nat) :
    (tree_reduce args op rank world masks false : Prog D ω Unit) = .ret () := by
  cases masks <;> rfl

/-- The messages of one mask of the first phase: a rank sends if its lowest
    bit is the mask. -/
def tree_reduce_message (m r : Nat) : Prog D ω Unit :=
  if r % (m * 2) = m then .fork [[.send (r - m) (G.wholeSpan (G.tensorAt r))]]
  else if r % (m * 2) = 0 ∧ r + m < G.world then
    .fork [[.recv (r + m) (G.wholeSpan (G.scratchAt r))]]
  else .ret ()

/-- The kernels of one mask of the first phase. -/
def tree_reduce_kernel (m r : Nat) : Prog D ω Unit :=
  if r % (m * 2) = 0 ∧ r + m < G.world then
    metal_reduce_op_view (G.args r).t_view (G.args r).recv_view G.dtype G.numel G.op
  else .ret ()

/-- One iteration. The active ranks are the multiples of the mask. -/
theorem tree_reduce_cons {r : Nat} (hr : r < G.world) (j : Nat) (masks : List Nat) :
    (tree_reduce (G.args r) G.op r G.world (2 ^ j :: masks) (decide (r % 2 ^ j = 0)) :
      Prog D ω Unit) = (do
        G.tree_reduce_message (2 ^ j) r
        G.tree_reduce_kernel (2 ^ j) r
        tree_reduce (G.args r) G.op r G.world masks (decide (r % 2 ^ (j + 1) = 0))) := by
  have hpos := Nat.two_pow_pos j
  rw [pow_succ]
  by_cases hj : r % 2 ^ j = 0
  · rcases mod_double hj with h0 | hm
    · -- Bit `j` is clear: receive if there is a partner.
      have hbit : ¬ r &&& 2 ^ j ≠ 0 := fun h => by
        have := (and_two_pow_ne_zero_iff hj).mp h
        omega
      by_cases hlt : r + 2 ^ j < G.world
      · simp only [tree_reduce, hj, decide_true, Bool.not_true, hbit, if_false, hlt, if_true,
          G.byte_ptr_recv hr, G.nbytes_eq hr, G.dtype_eq r hr, G.numel_eq r hr, Proc.ret_bind,
          tree_reduce_message, tree_reduce_kernel, h0, hpos.ne, and_self, Bool.false_eq_true]
        simp [mesh_recv, wholeSpan]
      · simp [tree_reduce, hj, hbit, hlt, tree_reduce_message, tree_reduce_kernel, h0, hpos.ne]
    · -- Bit `j` is set: send, and leave the loop.
      have hbit : r &&& 2 ^ j ≠ 0 := (and_two_pow_ne_zero_iff hj).mpr hm
      simp [tree_reduce, hj, hbit, G.byte_ptr_t hr, G.nbytes_eq hr, tree_reduce_message,
        tree_reduce_kernel, hm, tree_reduce_inactive, mesh_send, wholeSpan]
  · have h0 : ¬ r % (2 ^ j * 2) = 0 := fun h => hj (mod_of_mod_double (.inl h))
    have hm : ¬ r % (2 ^ j * 2) = 2 ^ j := fun h => hj (mod_of_mod_double (.inr h))
    simp [tree_reduce, hj, tree_reduce_message, tree_reduce_kernel, h0, hm, tree_reduce_inactive]

theorem treePairing (j : Nat) : Pairing G.ranks (fun r => r % (2 ^ j * 2) = 0 ∧ r + 2 ^ j < G.world)
    (fun r => r % (2 ^ j * 2) = 2 ^ j) (· + 2 ^ j) (· - 2 ^ j) := by
  have hpos := Nat.two_pow_pos j
  constructor
  · intro r hr h
    exact ⟨by rw [mem_ranks]; exact h.2, add_mod_double hpos h.1, by omega⟩
  · intro r hr hm
    rw [mem_ranks] at hr
    obtain ⟨hle, hmod⟩ := sub_mod_double hpos hm
    exact ⟨by rw [mem_ranks]; omega, ⟨hmod, by omega⟩, by omega⟩
  · intro r _ h hm
    omega

variable {G}

theorem tree_reduce_step_triple (hcap : 0 < cap) (hw : 0 < G.world) (j : Nat)
    (v : Nat → Nat → D.F f) :
    Triple cap G.ranks (G.Holds f k v (ω := ω))
      (fun r => do G.tree_reduce_message (2 ^ j) r; G.tree_reduce_kernel (2 ^ j) r)
      (G.Holds f k fun r i => if r % (2 ^ j * 2) = 0 ∧ r + 2 ^ j < G.world then
        D.apply k f (v r i) (v (r + 2 ^ j) i) else v r i) := by
  have hpos := Nat.two_pow_pos j
  -- In between, the receiving ranks hold their partner's tensor in the scratch.
  refine Triple.seq (Q := fun st => G.Holds f k v st ∧ ∀ r < G.world,
    r % (2 ^ j * 2) = 0 ∧ r + 2 ^ j < G.world → ∀ i < G.numel,
      G.scratch f st r i = v (r + 2 ^ j) i) ?_ ?_
  · refine Triple.pairs hcap List.nodup_range (G.treePairing j).symm ?_ ?_ ?_ ?_
    · intro r _ _
      simp [wholeSpan]
    · exact fun r _ _ => nodup_span _ _
    · intro st hst r hr h
      exact hst.ready.tag _ h.2 r (G.mem_ranks.mp hr)
    · intro st st' h haux htag hmoved hframe
      have hsize := h.ready.size_eq hw
      refine ⟨⟨h.ready.of_eq haux htag, fun r hr i hi => ?_⟩, fun r hr hpart i hi => ?_⟩
      · rw [← h.tensor_eq r hr i hi]
        refine elem_congr fun b _ => hframe r (G.mem_ranks.mpr hr) _ fun _ hmem => ?_
        exact G.scratch_ne r (mem_span.mp hmem).1.symm
      · rw [← h.tensor_eq _ hpart.2 i hi]
        refine elem_of_bytes (fun b hb => ?_) hi
        rw [hsize] at hb
        exact hmoved r (G.mem_ranks.mpr hr) hpart b _ _ (getElem?_span _ hb) (getElem?_span _ hb)
  · refine reduce_view_triple cap (fun r => r % (2 ^ j * 2) = 0 ∧ r + 2 ^ j < G.world)
      (fun r h => by omega) (fun st h => h.1.ready)
      fun st h => ⟨h.1.ready.execOn _ _, fun r hr i hi => ?_⟩
    obtain ⟨h, hscratch⟩ := h
    by_cases hpart : r % (2 ^ j * 2) = 0 ∧ r + 2 ^ j < G.world
    · have hexec := elem_store (c := D.codec f) (m := (st r).mem) (a := G.tensorAt r)
        (v := fun i => D.apply k f (G.tensor f st r i) (G.scratch f st r i)) hi
      simp only [tensor, execOn, hpart, and_self, if_true, execCmd_mem]
      refine hexec.trans ?_
      rw [h.tensor_eq r hr i hi, hscratch r hr hpart i hi]
    · simp only [tensor, execOn, hpart, if_false]
      exact h.tensor_eq r hr i hi

theorem tree_reduce_triple (hcap : 0 < cap) (hw : 0 < G.world) (x : Nat → Nat → D.F f) :
    Triple cap G.ranks (G.Holds f k x (ω := ω))
      (fun r => tree_reduce (G.args r) G.op r G.world (masksUp G.world G.world 1) true)
      (G.Holds f k fun r i =>
        treeReduced (D.apply k f) (fun q => x q i) G.world (Nat.clog 2 G.world) r) := by
  let v (j r i : Nat) : D.F f := treeReduced (D.apply k f) (fun q => x q i) G.world j r
  have key : ∀ n j, j + n = Nat.clog 2 G.world →
      Triple cap G.ranks (G.Holds f k (v j) (ω := ω))
        (fun r => tree_reduce (G.args r) G.op r G.world ((List.range' j n).map (2 ^ ·))
          (decide (r % 2 ^ j = 0)))
        (G.Holds f k (v (Nat.clog 2 G.world))) := by
    intro n
    induction n with
    | zero =>
      rintro j rfl
      exact Triple.skip _ _
    | succ n ih =>
      intro j hj
      refine ((tree_reduce_step_triple hcap hw j (v j)).seq (ih (j + 1) (by omega))).congr
        fun r hr => ?_
      rw [List.range'_succ, List.map_cons, G.tree_reduce_cons (G.mem_ranks.mp hr),
        Proc.bind_assoc]
  refine (key (Nat.clog 2 G.world) 0 (by omega)).congr fun r _ => ?_
  have hmasks := masksUp_eq (w := G.world) G.world 0
    (by have := clog_le_self G.world; omega)
  rw [pow_zero, Nat.sub_zero] at hmasks
  rw [hmasks, pow_zero, Nat.mod_one]
  rfl

theorem tree_broadcast_step_triple (hcap : 0 < cap) (hw : 0 < G.world) (j : Nat)
    (v : Nat → Nat → D.F f) :
    Triple cap G.ranks (G.Holds f k v (ω := ω))
      (fun r => tree_broadcast_step (G.args r) r G.world (2 ^ j))
      (G.Holds f k fun r i => if r % (2 ^ j * 2) = 2 ^ j then v (r - 2 ^ j) i else v r i) := by
  have hround : Triple cap G.ranks (G.Holds f k v (ω := ω))
      (fun r => if r % (2 ^ j * 2) = 0 ∧ r + 2 ^ j < G.world then
          Proc.fork [[.send (r + 2 ^ j) (G.wholeSpan (G.tensorAt r))]]
        else if r % (2 ^ j * 2) = 2 ^ j then
          Proc.fork [[.recv (r - 2 ^ j) (G.wholeSpan (G.tensorAt r))]]
        else .ret ())
      (G.Holds f k fun r i => if r % (2 ^ j * 2) = 2 ^ j then v (r - 2 ^ j) i else v r i) := by
    refine Triple.pairs hcap List.nodup_range (G.treePairing j) ?_ ?_ ?_ ?_
    · intro r _ _
      simp [wholeSpan]
    · exact fun r _ _ => nodup_span _ _
    · intro st hst r hr _
      rw [mem_ranks] at hr
      exact hst.ready.tag _ (by omega) r hr
    · intro st st' h haux htag hmoved hframe
      have hsize := h.ready.size_eq hw
      refine ⟨h.ready.of_eq haux htag, fun r hr i hi => ?_⟩
      by_cases hm : r % (2 ^ j * 2) = 2 ^ j
      · rw [if_pos hm, ← h.tensor_eq (r - 2 ^ j) (by omega) i hi]
        refine elem_of_bytes (fun b hb => ?_) hi
        rw [hsize] at hb
        exact hmoved r (G.mem_ranks.mpr hr) hm b _ _ (getElem?_span _ hb) (getElem?_span _ hb)
      · rw [if_neg hm, ← h.tensor_eq r hr i hi]
        exact elem_congr fun b _ => hframe r (G.mem_ranks.mpr hr) _ fun h => absurd h hm
  refine hround.congr fun r hr => ?_
  rw [mem_ranks] at hr
  simp only [tree_broadcast_step, G.byte_ptr_t hr, G.nbytes_eq hr, Proc.ret_bind,
    Nat.shiftLeft_eq, pow_one]
  rfl

/-- The tree combines blocks of ranks, and broadcasts the value of rank 0. -/
theorem allreduce_tree_triple (hcap : 0 < cap) (hw : 2 ≤ G.world) (x : Nat → Nat → D.F f) :
    Triple cap G.ranks (G.Holds f k x (ω := ω))
      (fun r => allreduce_tree (G.args r) G.op r G.world)
      (G.Holds f k fun _ i => G.scaled D f
        (treeReduced (D.apply k f) (fun q => x q i) G.world (Nat.clog 2 G.world) 0)) := by
  let n := Nat.clog 2 G.world
  have hn : 0 < n := Nat.clog_pos one_lt_two hw
  let reduced (r i : Nat) : D.F f := treeReduced (D.apply k f) (fun q => x q i) G.world n r
  let spread (j r i : Nat) : D.F f := treeBroadcast (fun q => reduced q i) n j r
  have hspread : Triple cap G.ranks (G.Holds f k (spread 0) (ω := ω))
      (fun r => forM (List.range n) fun i =>
        tree_broadcast_step (G.args r) r G.world (2 ^ (n - 1 - i)))
      (G.Holds f k (spread n)) :=
    .forM (fun j => G.Holds f k (spread j)) fun j _ =>
      tree_broadcast_step_triple hcap (by omega) (n - 1 - j) (spread j)
  have hall := (tree_reduce_triple hcap (by omega) x).seq (hspread.seq (G.average_holds_triple cap _))
  refine (hall.congr fun r _ => ?_).conseq (fun _ h => h) fun st h => h.congr fun r hr i _ => ?_
  · have htop := topMask_eq (w := G.world) G.world 0 hn
      (by have := clog_le_self G.world; omega)
    have hdown := masksDown_eq G.world (n - 1)
      (by have := clog_le_self G.world; omega)
    rw [Nat.sub_add_cancel hn] at hdown
    rw [pow_zero] at htop
    rw [allreduce_tree, htop, hdown, List.forM_map]
  · have hbroadcast := treeBroadcast_eq (y := fun q => reduced q i) (n := n) (i := n)
      (Nat.le_pow_clog one_lt_two _) le_rfl hr (by rw [Nat.sub_self, pow_zero, Nat.mod_one])
    simp only [spread, hbroadcast]
    rfl

/-- **The tree allreduce reduces.** In every complete run of all ranks, for
    any number of ranks and over channels of any capacity, every rank returns
    with the element-wise reduction of all inputs, and nothing that was sent
    is left in a channel. -/
theorem allreduce_tree_reduces (G : AllreduceGroup) (hw : 2 ≤ G.world) (hcap : 0 < cap)
    (hcomm : Std.Commutative (D.apply k f)) (hassoc : Std.Associative (D.apply k f))
    {st : Nat → RankStore D ω} (hst : G.Ready f k st)
    {s : Net Nat Addr β (Local D ω)} (hs : Reaches cap (G.initial allreduce_tree st) s)
    (hfin : s.Finished) :
    (∀ r < G.world, (s.node r).prog = .ret () ∧
      ∀ i < G.numel, G.tensor f (stores s) r i = G.result D f k fun q => G.tensor f st q i) ∧
    ∀ p q, s.chan p q = [] := by
  obtain ⟨hholds, hret, hempty⟩ :=
    finished_run (allreduce_tree_triple hcap hw (G.tensor f st)) hst hs hfin
  refine ⟨fun r hr => ⟨hret r, fun i hi => ?_⟩, hempty⟩
  rw [hholds.tensor_eq r hr i hi, treeReduced_eq_reduce hcomm hassoc (by omega)
    (Nat.le_pow_clog one_lt_two _)]
  rfl

theorem allreduce_tree_small :
    ∃ s : Net Nat Addr Nat (Local natDevice Unit),
      Reaches 1 ((smallGroup .SUM).initial allreduce_tree smallStores) s ∧ s.Finished ∧
        (∀ r < 3, ∀ i < 4, (smallGroup .SUM).tensor .f32 (stores s) r i = 30 + 3 * i) ∧
        ∀ p q, s.chan p q = [] := by
  obtain ⟨st', -, hout⟩ := (allreduce_tree_triple (k := .add) (G := smallGroup .SUM) one_pos
    (by decide) _).outcome ⟨smallGroup_ready, fun _ _ _ _ => rfl⟩
  have h := allreduce_tree_reduces (smallGroup .SUM) (by decide) one_pos natDevice_add_comm
    natDevice_add_assoc smallGroup_ready (hout.reaches .refl) (done_finished st')
  exact ⟨done st', hout.reaches .refl, done_finished st',
    fun r hr i hi => ((h.1 r hr).2 i hi).trans (smallGroup_result i hi), h.2⟩

end AllreduceGroup

end Mccl
