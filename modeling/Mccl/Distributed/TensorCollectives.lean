import Mathlib.Algebra.BigOperators.Fin
import Mathlib.Algebra.BigOperators.Pi
import Mathlib.Algebra.Field.Basic
import Mathlib.Algebra.Field.Rat
import Mccl.Framework.Programs

/-! # Collectives of Distributed Tensors

    Model of `sync_gradient`, `all_reduce` and `reduce_scatter` of
    `DistributedTensor` (`distributed/tensor.py`). Every node registers its buffer;
    peers write it with `put` and read it with `get`, and nothing keeps a node from
    doing so while its owner is at work. Each operation on a buffer is one step, and
    the nodes' calls interleave in any way. The elements are those of a field: what
    is shown does not come from rounding.

    * `all_reduce_sum_iff`: nobody adds anything. A `put` overwrites what the peer
      has, and the result is the sum only if all buffers are zero (or there is one
      node).
    * `reduce_scatter_sum_iff`: a node adds to the buffer that its peers read, and
      who reads late adds some buffers twice. -/

namespace Mccl

namespace DistributedTensor

open Programs (alone serial Step)

variable {n : Nat} {ι K : Type}

/-- The `op` of `all_reduce` and `reduce_scatter`; the element-wise minimum and
    maximum work on other buffers and are not treated here. -/
inductive ReduceOp where
  | sum
  | avg
deriving DecidableEq

/-- The operations on buffers, one after the other as a node calls them. -/
inductive Stmt (n : Nat) where
  /-- `self._local.mul_(1.0 / self._num_shards)`. -/
  | mul_ (num_shards : Nat)
  /-- `put` of the whole buffer, and its completion. -/
  | put (peer_node : Fin n)
  /-- `get` of the peer's buffer into `tmp`, and its completion. -/
  | get (peer_node : Fin n)
  /-- `self._local.add_` of `tmp`, divided by the number of shards for `avg`. -/
  | add_ (op : ReduceOp) (num_shards : Nat)

structure Memory (n : Nat) (ι K : Type) where
  /-- The registered buffers. -/
  buf : Fin n → ι → K
  tmp : Fin n → ι → K

/-- `peer_regions`: a dictionary with an entry for every other node. It may have one
    for the node itself, which the loops skip. -/
structure PeerRegions (me : Fin n) where
  nodes : List (Fin n)
  nodup : nodes.Nodup
  complete : ∀ p, p ≠ me → p ∈ nodes

namespace PeerRegions

variable {me : Fin n}

/-- The nodes that the loops do not skip, in the order of the dictionary. -/
def others (peer_regions : PeerRegions me) : List (Fin n) := peer_regions.nodes.filter (· ≠ me)

theorem mem_others {peer_regions : PeerRegions me} {p : Fin n} : p ∈ peer_regions.others ↔ p ≠ me := by
  unfold others
  rw [List.mem_filter, decide_eq_true_eq]
  exact ⟨fun h => h.2, fun h => ⟨peer_regions.complete p h, h⟩⟩

theorem nodup_others (peer_regions : PeerRegions me) : peer_regions.others.Nodup := peer_regions.nodup.filter _

theorem perm_cons_others (peer_regions : PeerRegions me) : (me :: peer_regions.others).Perm (List.finRange n) := by
  rw [List.perm_ext_iff_of_nodup _ (List.nodup_finRange n)]
  · intro p
    rw [List.mem_cons, mem_others]
    simp only [List.mem_finRange, iff_true]
    exact em (p = me)
  · rw [List.nodup_cons, mem_others]
    exact ⟨fun h => h rfl, peer_regions.nodup_others⟩

/-- The node itself and its peers are all nodes. -/
theorem sum_others [AddCommMonoid K] (peer_regions : PeerRegions me) (x : Fin n → ι → K) :
    x me + (peer_regions.others.map x).sum = ∑ j, x j := by
  rw [← List.sum_cons, ← List.map_cons, (peer_regions.perm_cons_others.map x).sum_eq, Fin.sum_univ_def]

theorem others_eq_nil (hn : n ≤ 1) (peer_regions : PeerRegions me) : peer_regions.others = [] := by
  apply List.eq_nil_iff_forall_not_mem.mpr
  intro p hp
  apply mem_others.mp hp
  apply Fin.ext
  omega

end PeerRegions

theorem sum_eq_of_le_one [AddCommMonoid K] (hn : n ≤ 1) (x : Fin n → ι → K) (i : Fin n) : ∑ j, x j = x i := by
  apply Fintype.sum_eq_single
  intro j hj
  exact absurd (Fin.ext (by omega)) hj

def sync_gradient {me : Fin n} (num_shards : Nat) (peer_regions : PeerRegions me) : List (Stmt n) :=
  .mul_ num_shards :: peer_regions.others.map .put

def all_reduce {me : Fin n} (num_shards : Nat) (peer_regions : PeerRegions me) : ReduceOp → List (Stmt n)
  | .sum => sync_gradient num_shards peer_regions
  | .avg => sync_gradient num_shards peer_regions ++ [.mul_ num_shards]

/-- The loop body of `reduce_scatter`. -/
def getAdd (num_shards : Nat) (op : ReduceOp) (peer_node : Fin n) : List (Stmt n) :=
  [.get peer_node, .add_ op num_shards]

def reduce_scatter {me : Fin n} (num_shards : Nat) (peer_regions : PeerRegions me) (op : ReduceOp) :
    List (Stmt n) :=
  peer_regions.others.flatMap (getAdd num_shards op)

variable [Field K]

def exec (me : Fin n) : Stmt n → Memory n ι K → Memory n ι K
  | .mul_ num_shards, m => { m with buf := Function.update m.buf me fun k => m.buf me k * (1 / num_shards) }
  | .put peer_node, m => { m with buf := Function.update m.buf peer_node (m.buf me) }
  | .get peer_node, m => { m with tmp := Function.update m.tmp me (m.buf peer_node) }
  | .add_ .sum _, m => { m with buf := Function.update m.buf me (m.buf me + m.tmp me) }
  | .add_ .avg num_shards, m =>
    { m with buf := Function.update m.buf me (m.buf me + fun k => m.tmp me k / num_shards) }

/-- The nodes' calls, with the given programs and buffers. `tmp` is not
    initialised. -/
abbrev calls (prog : Fin n → List (Stmt n)) (m : Memory n ι K) :
    System (Programs.State (Fin n) (Stmt n) (Memory n ι K)) (Fin n) :=
  Programs.system exec prog m

/-- Every interleaving ends with the element-wise sum of the initial buffers on
    every node. -/
def LeavesSum (prog : Fin n → List (Stmt n)) (m : Memory n ι K) : Prop :=
  (calls prog m).Ends (fun s => ∀ i, s.shared.buf i = ∑ j, m.buf j) ⟨m, prog⟩

variable {prog : Fin n → List (Stmt n)}

/-- In particular if the nodes call one after the other. -/
theorem LeavesSum.serial {m : Memory n ι K} (h : LeavesSum prog m)
    {order : List (Fin n)} (horder : order.Perm (List.finRange n)) (i : Fin n) :
    (serial exec prog order m).buf i = ∑ j, m.buf j := by
  have hnodup : order.Nodup := horder.nodup_iff.mpr (List.nodup_finRange n)
  have hall : ∀ j, j ∈ order := fun j => horder.mem_iff.mpr (List.mem_finRange j)
  exact Programs.serial_of_ends (P := fun m' : Memory n ι K => ∀ i, m'.buf i = ∑ j, m.buf j) h hnodup hall i

theorem leavesSum_of_one {m : Memory n ι K} (hn : n ≤ 1)
    (h : (calls prog m).Ends (fun s => s.shared.buf = m.buf) ⟨m, prog⟩) : LeavesSum prog m := by
  apply h.mono
  intro s hs i
  rw [hs, sum_eq_of_le_one hn]

theorem leavesSum_of_zero {m : Memory n ι K} (hm : m.buf = 0)
    (h : (calls prog m).Ends (fun s => s.shared.buf = 0) ⟨m, prog⟩) : LeavesSum prog m := by
  apply h.mono
  intro s hs i
  rw [hs, hm]
  simp

/-- If every element is the same multiple of their sum, a positive one, all are
    zero. -/
theorem eq_zero_of_multiple [CharZero K] (hn : 2 ≤ n) {c : Nat} (hc : 0 < c) {x : Fin n → K}
    (h : ∀ j, x j = (∑ i, x i) * c) (j : Fin n) : x j = 0 := by
  have hsum : (∑ i, x i) * ((n * c : Nat) - 1 : K) = 0 := by
    have hadd : ∑ i, x i = (n : K) * ((∑ i, x i) * c) := by
      calc ∑ i, x i = ∑ _i : Fin n, (∑ i, x i) * (c : K) := Finset.sum_congr rfl fun i _ => h i
        _ = (n : K) * ((∑ i, x i) * c) := by simp
    rw [mul_sub, mul_one, sub_eq_zero, Nat.cast_mul, ← mul_assoc, mul_comm _ (n : K), mul_assoc]
    exact hadd.symm
  have hne : ((n * c : Nat) - 1 : K) ≠ 0 := by
    rw [sub_ne_zero]
    have hlt : 1 < n * c := Nat.lt_of_lt_of_le hn (Nat.le_mul_of_pos_right n hc)
    exact_mod_cast hlt.ne'
  rw [h j, (mul_eq_zero.mp hsum).resolve_right hne, zero_mul]

/-! ## All-Reduce -/

section AllReduce

variable {me : Fin n} {m : Memory n ι K}

/-- The loop of `sync_gradient` copies the node's buffer. -/
theorem alone_put {peers : List (Fin n)} (hme : me ∉ peers) (m : Memory n ι K) :
    (alone exec me (peers.map .put) m).buf = fun i => if i ∈ peers then m.buf me else m.buf i := by
  induction peers generalizing m with
  | nil => simp [alone]
  | cons p rest ih =>
    have hp : me ≠ p := List.ne_of_not_mem_cons hme
    have hrest : me ∉ rest := List.not_mem_of_not_mem_cons hme
    have hnext := ih hrest (exec me (.put p) m)
    show (alone exec me (rest.map .put) (exec me (.put p) m)).buf = _
    rw [hnext]
    funext i
    by_cases hi : i = p
    · simp [exec, hi, hp]
    · simp [exec, hi, hp]

/-- A call that nothing interrupts leaves the node's scaled buffer everywhere. -/
theorem alone_sync_gradient (num_shards : Nat) (peer_regions : PeerRegions me) (m : Memory n ι K) :
    (alone exec me (sync_gradient num_shards peer_regions) m).buf =
      fun _ k => m.buf me k * (1 / num_shards) := by
  have hme : me ∉ peer_regions.others := fun hmem => PeerRegions.mem_others.mp hmem rfl
  show (alone exec me (peer_regions.others.map .put) (exec me (.mul_ num_shards) m)).buf = _
  rw [alone_put hme]
  funext i
  by_cases hi : i = me
  · simp [exec, hi, hme]
  · simp [exec, PeerRegions.mem_others, hi]

/-- Calls one after the other: the first buffer, scaled by every call. -/
theorem serial_sync_gradient (num_shards : Nat) (peer_regions : (i : Fin n) → PeerRegions i) (first : Fin n)
    (rest : List (Fin n)) (m : Memory n ι K) :
    (serial exec (fun i => sync_gradient num_shards (peer_regions i)) (first :: rest) m).buf =
      fun _ k => m.buf first k * (1 / num_shards) ^ (rest.length + 1) := by
  induction rest generalizing first m with
  | nil =>
    show (alone exec first (sync_gradient num_shards (peer_regions first)) m).buf = _
    rw [alone_sync_gradient]
    simp
  | cons next rest ih =>
    have hnext := ih next (alone exec first (sync_gradient num_shards (peer_regions first)) m)
    show (serial exec _ (next :: rest) (alone exec first _ m)).buf = _
    rw [hnext, alone_sync_gradient]
    funext i k
    rw [List.length_cons, pow_succ' _ (rest.length + 1), ← mul_assoc]

/-- With one node there is nobody to put to, and the scale is one. -/
theorem all_reduce_one (hn : n ≤ 1) (peer_regions : (i : Fin n) → PeerRegions i) (m : Memory n ι K) :
    LeavesSum (fun i => all_reduce n (peer_regions i) .sum) m := by
  apply leavesSum_of_one hn
  apply Programs.ends_of_stable (P := fun m' : Memory n ι K => m'.buf = m.buf) _ rfl
  intro i t ht m' hm'
  have hstmt : t = .mul_ n := by
    simpa [all_reduce, sync_gradient, PeerRegions.others_eq_nil hn] using ht
  have hn1 : n = 1 := by
    have hi := i.isLt
    omega
  rw [hstmt, ← hm']
  simp [exec, hn1]

theorem all_reduce_zero (peer_regions : (i : Fin n) → PeerRegions i) {m : Memory n ι K} (hm : m.buf = 0) :
    LeavesSum (fun i => all_reduce n (peer_regions i) .sum) m := by
  apply leavesSum_of_zero hm
  apply Programs.ends_of_stable (P := fun m' : Memory n ι K => m'.buf = 0) _ hm
  intro i t ht m' hm'
  have hstmt : t = .mul_ n ∨ ∃ p, t = .put p := by
    rcases List.mem_cons.mp ht with heq | hput
    · exact .inl heq
    · obtain ⟨p, _, heq⟩ := List.mem_map.mp hput
      exact .inr ⟨p, heq.symm⟩
  rcases hstmt with rfl | ⟨p, rfl⟩
  · funext j
    by_cases hj : j = i <;> simp [exec, hm', hj, Pi.zero_def]
  · funext j
    by_cases hj : j = p <;> simp [exec, hm', hj, Pi.zero_def]

/-- **All-reduce with `sum`** leaves the sum in every interleaving exactly if there
    is one node or every buffer is zero. -/
theorem all_reduce_sum_iff [CharZero K] (peer_regions : (i : Fin n) → PeerRegions i) (m : Memory n ι K) :
    LeavesSum (fun i => all_reduce n (peer_regions i) .sum) m ↔ n ≤ 1 ∨ m.buf = 0 := by
  constructor
  · intro h
    rcases Nat.lt_or_ge 1 n with hn | hn
    · right
      have hpos : (n : K) ≠ 0 := Nat.cast_ne_zero.mpr (by omega)
      funext j k
      refine eq_zero_of_multiple hn (c := n ^ n) (Nat.pow_pos (by omega)) (x := fun j => m.buf j k) ?_ j
      intro j
      -- node `j` goes first, and its buffer is what everybody has in the end
      have horder := (peer_regions j).perm_cons_others
      have hend := h.serial horder j
      have hlen : (peer_regions j).others.length + 1 = n := by
        simpa using horder.length_eq
      change (serial exec (fun i => sync_gradient n (peer_regions i)) _ m).buf j = _ at hend
      rw [serial_sync_gradient, hlen] at hend
      have hk : m.buf j k * (1 / n) ^ n = (∑ i, m.buf i) k := congrFun hend k
      rw [Finset.sum_apply, one_div, inv_pow] at hk
      show m.buf j k = (∑ i, m.buf i k) * (n ^ n : Nat)
      rw [← hk, Nat.cast_pow, mul_assoc, inv_mul_cancel₀ (pow_ne_zero n hpos), mul_one]
    · exact .inl hn
  · intro h
    rcases h with hn | hm
    · exact all_reduce_one hn peer_regions m
    · exact all_reduce_zero peer_regions hm

/-- The dictionary with an entry for every node, also the node itself. -/
def everyone (me : Fin n) : PeerRegions me :=
  ⟨List.finRange n, List.nodup_finRange n, fun p _ => List.mem_finRange p⟩

/-- Two nodes, with the one-element buffers 1 and 3. -/
def oneAndThree : Memory 2 Unit ℚ := ⟨fun i _ => if i = 0 then 1 else 3, fun _ _ => 0⟩

theorem oneAndThree_ne : ¬(2 ≤ 1 ∨ oneAndThree.buf = 0) := by
  intro h
  rcases h with hn | hbuf
  · exact absurd hn (by decide)
  · have hzero : oneAndThree.buf 0 () = 0 := by rw [hbuf]; rfl
    exact absurd hzero (by decide)

theorem all_reduce_sum_two : ¬LeavesSum (fun i => all_reduce 2 (everyone i) .sum) oneAndThree ∧
    LeavesSum (fun i => all_reduce 2 (everyone i) .sum) (⟨0, oneAndThree.tmp⟩ : Memory 2 Unit ℚ) := by
  constructor
  · rw [all_reduce_sum_iff]
    exact oneAndThree_ne
  · exact (all_reduce_sum_iff everyone _).mpr (.inr rfl)

/-- Node 0 calls and then node 1: both have a quarter in the end, and not four. -/
theorem all_reduce_overwrites : ∃ s, (calls (fun i => all_reduce 2 (everyone i) .sum) oneAndThree).Reachable s ∧
    (∀ i, s.todo i = []) ∧ s.shared.buf 0 () = 1 / 4 ∧ s.shared.buf 1 () = 1 / 4 ∧
    ∑ j, oneAndThree.buf j () = 4 := by
  have hinit : (calls (fun i => all_reduce 2 (everyone i) .sum) oneAndThree).Reachable _ := .init rfl
  have hmul := hinit.next (.exec (i := 0) rfl)
  have hput := hmul.next (.exec (i := 0) rfl)
  have hmul' := hput.next (.exec (i := 1) rfl)
  have hput' := hmul'.next (.exec (i := 1) rfl)
  exact ⟨_, hput', Fin.forall_fin_two.mpr ⟨rfl, rfl⟩, by decide +kernel, by decide +kernel, by decide +kernel⟩

end AllReduce

/-! ## Reduce-Scatter -/

section ReduceScatter

variable {me : Fin n}

theorem alone_getAdd (num_shards : Nat) {peers : List (Fin n)} (hme : me ∉ peers) (m : Memory n ι K) :
    (alone exec me (peers.flatMap (getAdd num_shards .sum)) m).buf =
      Function.update m.buf me (m.buf me + (peers.map m.buf).sum) := by
  induction peers generalizing m with
  | nil => simp [alone]
  | cons p rest ih =>
    have hp : me ≠ p := List.ne_of_not_mem_cons hme
    have hrest : me ∉ rest := List.not_mem_of_not_mem_cons hme
    have hnext := ih hrest (exec me (.add_ .sum num_shards) (exec me (.get p) m))
    show (alone exec me (rest.flatMap (getAdd num_shards .sum))
      (exec me (.add_ .sum num_shards) (exec me (.get p) m))).buf = _
    rw [hnext]
    -- the peers that are left have the buffers they had
    have hsame : rest.map (exec me (.add_ .sum num_shards) (exec me (.get p) m)).buf = rest.map m.buf := by
      apply List.map_congr_left
      intro q hq
      have hqme : q ≠ me := fun heq => hrest (heq ▸ hq)
      simp [exec, hqme]
    rw [hsame]
    simp [exec, add_assoc]

/-- A call that nothing interrupts adds up all buffers. -/
theorem alone_reduce_scatter (num_shards : Nat) (peer_regions : PeerRegions me) (m : Memory n ι K) :
    (alone exec me (reduce_scatter num_shards peer_regions .sum) m).buf =
      Function.update m.buf me (∑ j, m.buf j) := by
  have hme : me ∉ peer_regions.others := fun hmem => PeerRegions.mem_others.mp hmem rfl
  unfold reduce_scatter
  rw [alone_getAdd num_shards hme, peer_regions.sum_others]

theorem serial_reduce_scatter_frame (num_shards : Nat) (peer_regions : (i : Fin n) → PeerRegions i)
    {order : List (Fin n)} {b : Fin n} (hb : b ∉ order) (m : Memory n ι K) :
    (serial exec (fun i => reduce_scatter num_shards (peer_regions i) .sum) order m).buf b = m.buf b := by
  induction order generalizing m with
  | nil => rfl
  | cons i rest ih =>
    have hbi : b ≠ i := List.ne_of_not_mem_cons hb
    have hrest : b ∉ rest := List.not_mem_of_not_mem_cons hb
    have hnext := ih hrest (alone exec i (reduce_scatter num_shards (peer_regions i) .sum) m)
    show (serial exec _ rest (alone exec i _ m)).buf b = _
    rw [hnext, alone_reduce_scatter, Function.update_of_ne hbi]

/-- The second node to call counts the first one's sum. -/
theorem serial_reduce_scatter (num_shards : Nat) (peer_regions : (i : Fin n) → PeerRegions i) {a b : Fin n}
    {rest : List (Fin n)} (hb : b ∉ rest) (m : Memory n ι K) :
    (serial exec (fun i => reduce_scatter num_shards (peer_regions i) .sum) (a :: b :: rest) m).buf b =
      ∑ j, m.buf j + (∑ j, m.buf j - m.buf a) := by
  show (serial exec _ rest (alone exec b _ (alone exec a _ m))).buf b = _
  rw [serial_reduce_scatter_frame num_shards peer_regions hb, alone_reduce_scatter, Function.update_self,
    alone_reduce_scatter, Finset.sum_update_of_mem (Finset.mem_univ a),
    Finset.sum_sdiff_eq_sub (Finset.subset_univ {a}), Finset.sum_singleton]

/-- Where a node stands in its loop, if the buffers are zero: what it has read is. -/
def AtZero (num_shards : Nat) (s : Programs.State (Fin n) (Stmt n) (Memory n ι K)) : Prop :=
  s.shared.buf = 0 ∧ ∀ i, ∃ peers : List (Fin n),
    s.todo i = peers.flatMap (getAdd num_shards .sum) ∨
      s.todo i = .add_ .sum num_shards :: peers.flatMap (getAdd num_shards .sum) ∧ s.shared.tmp i = 0

theorem AtZero.step {num_shards : Nat} {s s' : Programs.State (Fin n) (Stmt n) (Memory n ι K)} {i : Fin n}
    (h : AtZero num_shards s) (hs : Step exec s i s') : AtZero num_shards s' := by
  obtain ⟨hbuf, hloops⟩ := h
  cases hs with
  | exec htodo =>
    obtain ⟨peers, hget | ⟨hadd, htmp⟩⟩ := hloops i
    · rw [htodo] at hget
      cases peers with
      | nil => cases hget
      | cons p rest =>
        -- `get`: the peer's buffer is zero
        cases hget
        refine ⟨hbuf, ?_⟩
        intro j
        by_cases hj : j = i
        · subst hj
          exact ⟨rest, .inr ⟨Function.update_self .., by simp [exec, hbuf]⟩⟩
        · simpa [exec, hj] using hloops j
    · rw [htodo] at hadd
      cases hadd
      constructor
      · funext j
        by_cases hj : j = i
        · simp [exec, hbuf, htmp, hj]
        · simp [exec, hbuf, hj]
      · intro j
        by_cases hj : j = i
        · subst hj
          exact ⟨peers, .inl (Function.update_self ..)⟩
        · simpa [exec, hj] using hloops j

theorem reduce_scatter_zero (peer_regions : (i : Fin n) → PeerRegions i) {m : Memory n ι K} (hm : m.buf = 0) :
    LeavesSum (fun i => reduce_scatter n (peer_regions i) .sum) m := by
  apply leavesSum_of_zero hm
  apply Programs.ends_of_invariant (I := AtZero n) (P := fun m' : Memory n ι K => m'.buf = 0)
  · intro s i s' h hs
    exact h.step hs
  · intro s h _
    exact h.1
  · exact ⟨hm, fun i => ⟨(peer_regions i).others, .inl rfl⟩⟩

/-- With one node the loop has nothing to do. -/
theorem reduce_scatter_one (hn : n ≤ 1) (peer_regions : (i : Fin n) → PeerRegions i) (m : Memory n ι K) :
    LeavesSum (fun i => reduce_scatter n (peer_regions i) .sum) m := by
  apply leavesSum_of_one hn
  apply Programs.ends_of_stable (P := fun m' : Memory n ι K => m'.buf = m.buf) _ rfl
  intro i t ht m' hm'
  simp [reduce_scatter, PeerRegions.others_eq_nil hn] at ht

/-- **Reduce-scatter with `sum`** leaves the sum in every interleaving exactly if
    there is one node or every buffer is zero. -/
theorem reduce_scatter_sum_iff [CharZero K] (peer_regions : (i : Fin n) → PeerRegions i) (m : Memory n ι K) :
    LeavesSum (fun i => reduce_scatter n (peer_regions i) .sum) m ↔ n ≤ 1 ∨ m.buf = 0 := by
  constructor
  · intro h
    rcases Nat.lt_or_ge 1 n with hn | hn
    · right
      have hnt : Nontrivial (Fin n) := Fin.nontrivial_iff_two_le.mpr hn
      have hall : ∀ a, m.buf a = ∑ j, m.buf j := by
        intro a
        obtain ⟨b, hba⟩ := exists_ne a
        -- node `a` goes first and node `b` next
        have hb : b ∈ (peer_regions a).others := PeerRegions.mem_others.mpr hba
        have horder := ((List.perm_cons_erase hb).symm.cons a).trans (peer_regions a).perm_cons_others
        have hrest : b ∉ (peer_regions a).others.erase b := (peer_regions a).nodup_others.not_mem_erase
        have hend := h.serial horder b
        rw [serial_reduce_scatter n peer_regions hrest, add_eq_left, sub_eq_zero] at hend
        exact hend.symm
      funext a k
      refine eq_zero_of_multiple hn (c := 1) Nat.one_pos (x := fun j => m.buf j k) ?_ a
      intro j
      rw [Nat.cast_one, mul_one, ← Finset.sum_apply]
      exact congrFun (hall j) k
    · exact .inl hn
  · intro h
    rcases h with hn | hm
    · exact reduce_scatter_one hn peer_regions m
    · exact reduce_scatter_zero peer_regions hm

theorem reduce_scatter_sum_two : ¬LeavesSum (fun i => reduce_scatter 2 (everyone i) .sum) oneAndThree ∧
    LeavesSum (fun i => reduce_scatter 2 (everyone i) .sum) (⟨0, oneAndThree.tmp⟩ : Memory 2 Unit ℚ) := by
  constructor
  · rw [reduce_scatter_sum_iff]
    exact oneAndThree_ne
  · exact (reduce_scatter_sum_iff everyone _).mpr (.inr rfl)

/-- Node 0 calls and has four. Node 1 then adds the four to its three. If both read
    before they add, both have four. -/
theorem reduce_scatter_late :
    (∃ s, (calls (fun i => reduce_scatter 2 (everyone i) .sum) oneAndThree).Reachable s ∧
      (∀ i, s.todo i = []) ∧ s.shared.buf 0 () = 4 ∧ s.shared.buf 1 () = 7) ∧
    ∃ s, (calls (fun i => reduce_scatter 2 (everyone i) .sum) oneAndThree).Reachable s ∧
      (∀ i, s.todo i = []) ∧ s.shared.buf 0 () = 4 ∧ s.shared.buf 1 () = 4 := by
  have hinit : (calls (fun i => reduce_scatter 2 (everyone i) .sum) oneAndThree).Reachable _ := .init rfl
  have hget := hinit.next (.exec (i := 0) rfl)
  constructor
  · have hadd := hget.next (.exec (i := 0) rfl)
    have hget' := hadd.next (.exec (i := 1) rfl)
    have hadd' := hget'.next (.exec (i := 1) rfl)
    exact ⟨_, hadd', Fin.forall_fin_two.mpr ⟨rfl, rfl⟩, by decide +kernel, by decide +kernel⟩
  · have hget' := hget.next (.exec (i := 1) rfl)
    have hadd := hget'.next (.exec (i := 0) rfl)
    have hadd' := hadd.next (.exec (i := 1) rfl)
    exact ⟨_, hadd', Fin.forall_fin_two.mpr ⟨rfl, rfl⟩, by decide +kernel, by decide +kernel⟩

end ReduceScatter

end DistributedTensor

end Mccl
