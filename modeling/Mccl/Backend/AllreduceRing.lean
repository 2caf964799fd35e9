import Mccl.Backend.AllreduceGroup

/-! # The Ring Allreduce

    Both phases move chunks around the ring. For a single element only the
    chunk `c` that it belongs to matters, so the proof has two layers.

    * **Values** (`ringReduced`, `ringGathered`): one value per rank. After `k`
      steps of the first phase, the rank at distance `d ≤ k` behind rank `c`
      has combined the inputs of ranks `c`, ..., `c + d`; the rank at distance
      `w - 1` ends with all of them. The second phase copies that value.
    * **Programs**: a step of the programs of all ranks is a step of the
      values of all elements (`ring_reduce_step_triple`,
      `ring_gather_step_triple`). -/

namespace Mccl

open ForkJoin Arrays Reduction

/-! ## Index arithmetic -/

section indices
variable {w r c k : Nat}

abbrev ringNext (w r : Nat) : Nat := (r + 1) % w

abbrev ringPrev (w r : Nat) : Nat := (r + w - 1) % w

theorem mod_of_lt_two_mul {a : Nat} (h : a < 2 * w) : a % w = if a < w then a else a - w := by
  split
  case isTrue h' => exact Nat.mod_eq_of_lt h'
  case isFalse h' => rw [Nat.mod_eq_sub_mod (by omega), Nat.mod_eq_of_lt (by omega)]

theorem succ_mod_ne (hw : 2 ≤ w) (a : Nat) : (a + 1) % w ≠ a % w := by
  intro h
  have := Nat.sub_mod_eq_zero_of_mod_eq h
  rw [Nat.add_sub_cancel_left, Nat.mod_eq_of_lt (by omega)] at this
  exact absurd this (by decide)

theorem ringNext_eq (hr : r < w) : ringNext w r = if r + 1 = w then 0 else r + 1 := by
  rw [ringNext, mod_of_lt_two_mul (by omega)]
  split <;> split <;> omega

theorem ringPrev_eq (hr : r < w) : ringPrev w r = if r = 0 then w - 1 else r - 1 := by
  rw [ringPrev, mod_of_lt_two_mul (by omega)]
  split <;> split <;> omega

theorem ringNext_lt (hr : r < w) : ringNext w r < w := Nat.mod_lt _ (by omega)

theorem ringPrev_lt (hr : r < w) : ringPrev w r < w := Nat.mod_lt _ (by omega)

theorem ringPrev_next (hr : r < w) : ringPrev w (ringNext w r) = r := by
  rw [ringPrev_eq (ringNext_lt hr), ringNext_eq hr]
  split <;> split at * <;> omega

theorem ringNext_prev (hr : r < w) : ringNext w (ringPrev w r) = r := by
  rw [ringNext_eq (ringPrev_lt hr), ringPrev_eq hr]
  split <;> split at * <;> omega

theorem ringNext_ne (hw : 2 ≤ w) (hr : r < w) : r ≠ ringNext w r := by
  rw [ringNext_eq hr]
  split <;> omega

/-- A rank receives the chunk that its predecessor sends: first phase. -/
theorem ring_reduce_idx (hr : r < w) (hk : k < w) :
    (ringPrev w r + w - k) % w = (r + w - k - 1) % w := by
  rw [ringPrev_eq hr]
  split
  case isTrue h => rw [show w - 1 + w - k = w + (r + w - k - 1) by omega, Nat.add_mod_left]
  case isFalse h => rw [show r - 1 + w - k = r + w - k - 1 by omega]

/-- A rank receives the chunk that its predecessor sends: second phase. -/
theorem ring_gather_idx (hr : r < w) (hk : k < w) :
    (ringPrev w r + w + 1 - k) % w = (r + w - k) % w := by
  rw [ringPrev_eq hr]
  split
  case isTrue h => rw [show w - 1 + w + 1 - k = w + (r + w - k) by omega, Nat.add_mod_left]
  case isFalse h => rw [show r - 1 + w + 1 - k = r + w - k by omega]

/-- How far rank `r` is behind rank `c` in the ring. -/
abbrev ringDist (w c r : Nat) : Nat := (r + w - c) % w

theorem ringDist_eq (hc : c < w) (hr : r < w) :
    ringDist w c r = if c ≤ r then r - c else r + w - c := by
  rw [ringDist, mod_of_lt_two_mul (by omega)]
  split <;> split <;> omega

theorem ringDist_lt (hr : r < w) : ringDist w c r < w := Nat.mod_lt _ (by omega)

theorem add_ringDist (hc : c < w) (hr : r < w) : (c + ringDist w c r) % w = r := by
  rw [ringDist_eq hc hr]
  split
  case isTrue h => rw [show c + (r - c) = r by omega, Nat.mod_eq_of_lt hr]
  case isFalse h => rw [show c + (r + w - c) = r + w by omega, Nat.add_mod_right, Nat.mod_eq_of_lt hr]

theorem ringDist_prev (hc : c < w) (hr : r < w) :
    ringDist w c (ringPrev w r) = if ringDist w c r = 0 then w - 1 else ringDist w c r - 1 := by
  rw [ringDist_eq hc (ringPrev_lt hr), ringDist_eq hc hr, ringPrev_eq hr]
  split <;> split <;> split at * <;> split <;> omega

theorem ring_reduce_idx_iff (hc : c < w) (hr : r < w) (hk : k + 1 < w) :
    c = (r + w - k - 1) % w ↔ ringDist w c r = k + 1 := by
  rw [ringDist_eq hc hr, mod_of_lt_two_mul (by omega)]
  split <;> split <;> omega

theorem ring_gather_idx_iff (hc : c < w) (hr : r < w) (hk : k < w) :
    c = (r + w - k) % w ↔ ringDist w c r = k := by
  rw [ringDist_eq hc hr, mod_of_lt_two_mul (by omega)]
  split <;> split <;> omega

end indices

/-! ## Values

    The value of one element of chunk `c` at every rank. -/

section values
variable {α : Type} {op : α → α → α} {x : Nat → α} {w c : Nat}

/-- After `k` steps of the first phase. -/
def ringReduced (op : α → α → α) (x : Nat → α) (w c : Nat) : Nat → Nat → α
  | 0, r => x r
  | k + 1, r =>
    if c = (r + w - k - 1) % w then
      op (ringReduced op x w c k r) (ringReduced op x w c k (ringPrev w r))
    else ringReduced op x w c k r

/-- After `k` steps of the second phase. -/
def ringGathered (y : Nat → α) (w c : Nat) : Nat → Nat → α
  | 0, r => y r
  | k + 1, r =>
    if c = (r + w - k) % w then ringGathered y w c k (ringPrev w r) else ringGathered y w c k r

/-- The inputs of ranks `c`, ..., `c + d`, each combined into the next. -/
def ringFold (op : α → α → α) (x : Nat → α) (w c : Nat) : Nat → α
  | 0 => x c
  | d + 1 => op (x ((c + (d + 1)) % w)) (ringFold op x w c d)

theorem ringReduced_eq (hc : c < w) {k : Nat} (hk : k < w) {r : Nat} (hr : r < w) :
    ringReduced op x w c k r =
      if ringDist w c r ≤ k then ringFold op x w c (ringDist w c r) else x r := by
  induction k generalizing r with
  | zero =>
    rw [ringReduced]
    split
    case isTrue h =>
      have hd : ringDist w c r = 0 := by omega
      have hcr : c = r := by
        have := add_ringDist hc hr
        rwa [hd, Nat.add_zero, Nat.mod_eq_of_lt hc] at this
      rw [hd, ringFold, hcr]
    case isFalse h => rfl
  | succ k ih =>
    have hprev := ringDist_prev hc hr
    rw [ringReduced, ih (by omega) hr, ih (by omega) (ringPrev_lt hr)]
    simp only [ring_reduce_idx_iff hc hr hk]
    by_cases hd : ringDist w c r = k + 1
    · -- The chunk arrives: the predecessor has just finished its part of it.
      have hp : ringDist w c (ringPrev w r) = k := by rw [hprev, hd]; rfl
      rw [if_pos hd, if_neg (by omega), if_pos (by omega), if_pos (by omega), hp, hd, ringFold,
        ← hd, add_ringDist hc hr]
    · rw [if_neg hd]
      by_cases hle : ringDist w c r ≤ k
      · rw [if_pos hle, if_pos (by omega)]
      · rw [if_neg hle, if_neg (by omega)]

theorem ringGathered_eq {y g : Nat → α} (hy : ∀ r < w, y r = g (ringDist w c r)) (hc : c < w)
    {k : Nat} (hk : k < w) {r : Nat} (hr : r < w) :
    ringGathered y w c k r =
      if ringDist w c r < k then g (w - 1) else g (ringDist w c r) := by
  induction k generalizing r with
  | zero => rw [ringGathered, hy r hr, if_neg (by omega)]
  | succ k ih =>
    have hprev := ringDist_prev hc hr
    rw [ringGathered, ih (by omega) hr, ih (by omega) (ringPrev_lt hr)]
    simp only [ring_gather_idx_iff hc hr (show k < w by omega)]
    by_cases hd : ringDist w c r = k
    · rw [if_pos hd, if_pos (show ringDist w c r < k + 1 by omega), hprev, hd]
      by_cases hk0 : k = 0
      · -- The predecessor is the rank that finished the reduction.
        rw [if_pos hk0, if_neg (by omega)]
      · rw [if_neg hk0, if_pos (by omega)]
    · rw [if_neg hd]
      by_cases hlt : ringDist w c r < k
      · rw [if_pos hlt, if_pos (by omega)]
      · rw [if_neg hlt, if_neg (by omega)]

/-- The value of every rank in the end. -/
theorem ring_value (hc : c < w) {r : Nat} (hr : r < w) :
    ringGathered (ringReduced op x w c (w - 1)) w c (w - 1) r = ringFold op x w c (w - 1) := by
  have hreduced : ∀ r < w, ringReduced op x w c (w - 1) r = ringFold op x w c (ringDist w c r) := by
    intro r hr
    have := ringDist_lt (c := c) hr
    rw [ringReduced_eq hc (by omega) hr, if_pos (by omega)]
  rw [ringGathered_eq hreduced hc (by omega) hr]
  have := ringDist_lt (c := c) hr
  split
  · rfl
  · congr 1
    omega

theorem ringFold_combines (hc : c < w) (d : Nat) :
    Combines op x ((List.range (d + 1)).map fun i => (c + i) % w) (ringFold op x w c d) := by
  induction d with
  | zero =>
    have hstart : Combines op x [c] (x c) := .value c
    simpa [ringFold, Nat.mod_eq_of_lt hc] using hstart
  | succ d ih =>
    rw [List.range_succ, List.map_append]
    exact .perm List.perm_append_comm (.combine (.value _) ih)

/-- All inputs, starting at rank `c`. -/
theorem ringFold_combines_all (hc : c < w) :
    Combines op x (List.range w) (ringFold op x w c (w - 1)) := by
  apply Combines.perm (perm_rotate hc)
  have hfold : Combines op x _ (ringFold op x w c (w - 1)) := ringFold_combines hc (w - 1)
  rwa [Nat.sub_add_cancel (by omega)] at hfold

theorem ringFold_eq_reduce (hcomm : Std.Commutative op) (hassoc : Std.Associative op) (hc : c < w) :
    ringFold op x w c (w - 1) = reduce op x (w - 1) := by
  apply Combines.eq_reduce hcomm hassoc
  rw [Nat.sub_add_cancel (by omega)]
  exact ringFold_combines_all hc

end values

/-! ## Programs -/

section rounds
variable {β τ : Type} {cap : ℕ∞} {P Q : (Nat → Store Addr β τ) → Prop} {w : Nat}

/-- Every rank sends one range to the next one. -/
def ringMessages (w : Nat) (src dst : Nat → List Addr) : List (Xfer Nat Addr) :=
  (List.range w).map fun r => ⟨r, src r, ringNext w r, dst (ringNext w r)⟩

theorem mem_ringMessages {src dst : Nat → List Addr} {m : Xfer Nat Addr} :
    m ∈ ringMessages w src dst ↔
      ∃ r < w, m = ⟨r, src r, ringNext w r, dst (ringNext w r)⟩ := by
  simp [ringMessages, eq_comm]

theorem ring_round (hcap : 0 < cap) (hw : 2 ≤ w) {src dst : Nat → List Addr}
    (hlen : ∀ r < w, (src (ringPrev w r)).length = (dst r).length)
    (hnd : ∀ r < w, (dst r).Nodup) (hdisj : ∀ r < w, List.Disjoint (src r) (dst r))
    (htag : ∀ st, P st → ∀ r < w, ∀ q < w, (st r).tag = (st q).tag)
    (hQ : ∀ st st', P st → (∀ r, (st' r).aux = (st r).aux) → (∀ r, (st' r).tag = (st r).tag) →
      (∀ r < w, ∀ (j : Nat) (a b : Addr), (src (ringPrev w r))[j]? = some a →
        (dst r)[j]? = some b → (st' r).mem b = (st (ringPrev w r)).mem a) →
      (∀ r < w, ∀ a ∉ dst r, (st' r).mem a = (st r).mem a) → Q st') :
    Triple cap (List.range w) P
      (fun r => Proc.fork [[.send (ringNext w r) (src r)], [.recv (ringPrev w r) (dst r)]]) Q := by
  have hlen' : ∀ r < w, (src r).length = (dst (ringNext w r)).length := by
    intro r hr
    rw [← hlen _ (ringNext_lt hr), ringPrev_next hr]
  refine Triple.messages (ringMessages w src dst) hcap ?_ ?_ ?_ ?_ ?_ ?_
  · intro m hm
    obtain ⟨r, hr, rfl⟩ := mem_ringMessages.mp hm
    exact ⟨ringNext_ne hw hr, hlen' r hr, hnd _ (ringNext_lt hr), List.mem_range.mpr hr,
      List.mem_range.mpr (ringNext_lt hr)⟩
  · rw [ringMessages, List.pairwise_map]
    exact (List.nodup_range (n := w)).imp fun hne h => hne (Prod.mk.inj h).1
  · intro r hr t
    rw [List.mem_range] at hr
    constructor
    · intro ht
      rcases List.mem_pair.mp ht with rfl | rfl
      · exact .inl ⟨_, mem_ringMessages.mpr ⟨r, hr, rfl⟩, rfl, rfl⟩
      · refine .inr ⟨_, mem_ringMessages.mpr ⟨ringPrev w r, ringPrev_lt hr, rfl⟩, ?_, ?_⟩
        · exact ringNext_prev hr
        · simp only [ringNext_prev hr]
    · rintro (⟨m, hm, rfl, rfl⟩ | ⟨m, hm, rfl, rfl⟩)
      · obtain ⟨r, hr, rfl⟩ := mem_ringMessages.mp hm
        simp
      · obtain ⟨q, hq, rfl⟩ := mem_ringMessages.mp hm
        simp [ringPrev_next hq]
  · intro r hr
    rw [List.mem_range] at hr
    refine List.pairwise_pair.mpr ⟨?_, ?_, ?_, ?_, ?_⟩ <;> simp [hdisj r hr]
  · intro st hst m hm
    obtain ⟨r, hr, rfl⟩ := mem_ringMessages.mp hm
    exact htag st hst r hr _ (ringNext_lt hr)
  · intro st st' hst hmoved
    refine hQ st st' hst hmoved.aux hmoved.tag ?_ ?_
    · intro r hr j a b ha hb
      have := hmoved.moved _ (mem_ringMessages.mpr ⟨ringPrev w r, ringPrev_lt hr, rfl⟩) j a b ha
      simp only [ringNext_prev hr] at this
      exact this hb
    · intro r hr a ha
      refine hmoved.frame r a fun m hm hmr => ?_
      obtain ⟨q, hq, rfl⟩ := mem_ringMessages.mp hm
      have hq' : ringNext w q = r := hmr
      simpa only [hq'] using ha

end rounds

namespace AllreduceGroup

variable {β : Type} {D : Device β} {ω : Type} {f : Format} {k : BinaryOp} {cap : ℕ∞}
  (G : AllreduceGroup)

theorem ring_reduce_step_eq {r : Nat} (hr : r < G.world) (j : Nat) :
    (ring_reduce_step (G.args r) G.op r G.world j : Prog D ω Unit) = (do
      .fork [[.send (ringNext G.world r) (G.chunkSpan (G.tensorAt r) ((r + G.world - j) % G.world))],
        [.recv (ringPrev G.world r)
          (span (G.scratchAt r) (G.chunk ((r + G.world - j - 1) % G.world)).byte_len)]]
      metal_reduce_op_view
        (view_at (G.args r).t_view (G.chunk ((r + G.world - j - 1) % G.world)).byte_off)
        (G.args r).recv_view G.dtype (G.chunk ((r + G.world - j - 1) % G.world)).elem_count G.op) := by
  simp only [ring_reduce_step, G.chunkize_eq hr, G.byte_ptr_t hr, G.byte_ptr_recv hr, Proc.ret_bind,
    G.dtype_eq r hr]
  rfl

theorem ring_gather_step_eq {r : Nat} (hr : r < G.world) (j : Nat) :
    (ring_gather_step (G.args r) r G.world j : Prog D ω Unit) =
      .fork [[.send (ringNext G.world r)
          (G.chunkSpan (G.tensorAt r) ((r + G.world + 1 - j) % G.world))],
        [.recv (ringPrev G.world r)
          (G.chunkSpan (G.tensorAt r) ((r + G.world - j) % G.world))]] := by
  simp only [ring_gather_step, G.chunkize_eq hr, G.byte_ptr_t hr, Proc.ret_bind]
  rfl

/-- The chunk of the predecessor has arrived in the scratch. -/
structure Received (f : Format) (k : BinaryOp) (v : Nat → Nat → D.F f) (idx : Nat → Nat)
    (st : Nat → RankStore D ω) : Prop where
  holds : G.Holds f k v st
  scratch_eq : ∀ r < G.world, ∀ i < G.numel, G.owner i = idx r →
    G.scratch f st r (i - (G.chunk (idx r)).elem_start) = v (ringPrev G.world r) i

variable {G}

section steps
variable (hcap : 0 < cap) (hw : 2 ≤ G.world) {j : Nat} (hj : j + 1 < G.world) (v : Nat → Nat → D.F f)
include hcap hw hj

theorem ring_receive_triple :
    Triple cap G.ranks (G.Holds f k v (ω := ω))
      (fun r => .fork
        [[.send (ringNext G.world r) (G.chunkSpan (G.tensorAt r) ((r + G.world - j) % G.world))],
        [.recv (ringPrev G.world r)
          (span (G.scratchAt r) (G.chunk ((r + G.world - j - 1) % G.world)).byte_len)]])
      (G.Received f k v fun r => (r + G.world - j - 1) % G.world) := by
  refine ring_round hcap hw ?_ ?_ ?_ (fun st h => h.ready.tag) ?_
  · intro r hr
    rw [ring_reduce_idx hr (by omega), chunkSpan, length_span, length_span]
  · exact fun r _ => nodup_span _ _
  · exact fun r _ => disjoint_span_of_ne _ _ (G.scratch_ne r).symm
  · intro st st' h haux htag hmoved hframe
    have hsize := h.ready.size_eq (by omega)
    refine ⟨⟨h.ready.of_eq haux htag, fun r hr i hi => ?_⟩, fun r hr i hi howner => ?_⟩
    · -- The tensor is not touched.
      rw [← h.tensor_eq r hr i hi]
      refine elem_congr fun b _ => hframe r hr _ fun hmem => ?_
      exact G.scratch_ne r (mem_span.mp hmem).1.symm
    · rw [← h.tensor_eq _ (ringPrev_lt hr) i hi]
      refine elem_of_chunkSpan (by omega) hsize (fun b x y hx hy => ?_) hi howner
      exact hmoved r hr b x y (by rwa [ring_reduce_idx hr (by omega)]) hy

theorem ring_reduce_step_triple :
    Triple cap G.ranks (G.Holds f k v (ω := ω))
      (fun r => ring_reduce_step (G.args r) G.op r G.world j)
      (G.Holds f k fun r i => if G.owner i = (r + G.world - j - 1) % G.world then
        D.apply k f (v r i) (v (ringPrev G.world r) i) else v r i) := by
  let idx (r : Nat) : Nat := (r + G.world - j - 1) % G.world
  have hkernel : Triple cap G.ranks (G.Received f k v idx (ω := ω))
      (fun r => if r < G.world then
        metal_reduce_op_view (view_at (G.args r).t_view (G.chunk (idx r)).byte_off)
          (G.args r).recv_view G.dtype (G.chunk (idx r)).elem_count G.op else .ret ())
      (G.Holds f k fun r i => if G.owner i = idx r then
        D.apply k f (v r i) (v (ringPrev G.world r) i) else v r i) := by
    refine reduce_view_triple cap (· < G.world) (fun _ h => h) (fun st h => h.holds.ready)
      fun st h => ⟨h.holds.ready.execOn _ _, fun r hr i hi => ?_⟩
    have hexec := elem_reduce_chunk (k := k) (by omega) (h.holds.ready.size_eq (by omega))
      (st r).mem (G.tensorAt r) (G.scratchAt r) (idx r) hi
    simp only [tensor, execOn, hr, if_true, execCmd_mem]
    refine hexec.trans ?_
    by_cases howner : G.owner i = idx r
    · rw [if_pos howner, if_pos howner, ← h.holds.tensor_eq r hr i hi,
        ← h.scratch_eq r hr i hi howner]
      rfl
    · rw [if_neg howner, if_neg howner, ← h.holds.tensor_eq r hr i hi]
      rfl
  refine ((ring_receive_triple hcap hw hj v).seq hkernel).congr fun r hr => ?_
  rw [mem_ranks] at hr
  rw [G.ring_reduce_step_eq hr, if_pos hr]

theorem ring_gather_step_triple :
    Triple cap G.ranks (G.Holds f k v (ω := ω))
      (fun r => ring_gather_step (G.args r) r G.world j)
      (G.Holds f k fun r i => if G.owner i = (r + G.world - j) % G.world then
        v (ringPrev G.world r) i else v r i) := by
  refine Triple.congr ?_ fun r hr => G.ring_gather_step_eq (G.mem_ranks.mp hr) j
  refine ring_round hcap hw ?_ ?_ ?_ (fun st h => h.ready.tag) ?_
  · intro r hr
    rw [ring_gather_idx hr (by omega), chunkSpan, length_span, chunkSpan, length_span]
  · exact fun r _ => nodup_span _ _
  · intro r hr
    rw [show r + G.world + 1 - j = r + G.world - j + 1 by omega]
    exact disjoint_chunkSpan _ (succ_mod_ne hw _)
  · intro st st' h haux htag hmoved hframe
    have hsize := h.ready.size_eq (by omega)
    refine ⟨h.ready.of_eq haux htag, fun r hr i hi => ?_⟩
    by_cases howner : G.owner i = (r + G.world - j) % G.world
    · rw [if_pos howner, ← h.tensor_eq _ (ringPrev_lt hr) i hi]
      refine elem_of_chunkSpans (by omega) hsize (fun b x y hx hy => ?_) hi howner
      exact hmoved r hr b x y (by rwa [ring_gather_idx hr (by omega)]) hy
    · rw [if_neg howner, ← h.tensor_eq r hr i hi]
      exact elem_of_chunk_eq (by omega) hsize hi fun a ha =>
        hframe r hr a fun ha' => disjoint_chunkSpan _ howner ha ha'

end steps

/-- The ring reduces every element in the order in which its chunk travels. -/
theorem allreduce_ring_triple (hcap : 0 < cap) (hw : 2 ≤ G.world) (hn : G.world ≤ G.numel)
    (x : Nat → Nat → D.F f) :
    Triple cap G.ranks (G.Holds f k x (ω := ω))
      (fun r => allreduce_ring (G.args r) G.op r G.world)
      (G.Holds f k fun _ i => G.scaled D f
        (ringFold (D.apply k f) (fun q => x q i) G.world (G.owner i) (G.world - 1))) := by
  let reduced (j r i : Nat) : D.F f :=
    ringReduced (D.apply k f) (fun q => x q i) G.world (G.owner i) j r
  let gathered (j r i : Nat) : D.F f :=
    ringGathered (fun q => reduced (G.world - 1) q i) G.world (G.owner i) j r
  have hreduce : Triple cap G.ranks (G.Holds f k (reduced 0) (ω := ω))
      (fun r => forM (List.range (G.world - 1)) (ring_reduce_step (G.args r) G.op r G.world))
      (G.Holds f k (reduced (G.world - 1))) :=
    .forM (fun j => G.Holds f k (reduced j)) fun j hj =>
      ring_reduce_step_triple hcap hw (by omega) (reduced j)
  have hgather : Triple cap G.ranks (G.Holds f k (gathered 0) (ω := ω))
      (fun r => forM (List.range (G.world - 1)) (ring_gather_step (G.args r) r G.world))
      (G.Holds f k (gathered (G.world - 1))) :=
    .forM (fun j => G.Holds f k (gathered j)) fun j hj =>
      ring_gather_step_triple hcap hw (by omega) (gathered j)
  have hall := hreduce.seq (hgather.seq (G.average_holds_triple cap _))
  refine (hall.congr fun r hr => ?_).conseq (fun _ h => h) fun st h => h.congr fun r hr i hi => ?_
  · rw [mem_ranks] at hr
    simp only [allreduce_ring, G.numel_eq r hr, Proc.check_pos hn, Proc.ret_bind]
  · simp only [gathered, reduced, ring_value (owner_lt (by omega) hi) hr]

/-- **The ring allreduce reduces.** In every complete run of all ranks, over
    channels of any capacity, every rank returns with the element-wise
    reduction of all inputs. -/
theorem allreduce_ring_reduces (G : AllreduceGroup) (hw : 2 ≤ G.world) (hn : G.world ≤ G.numel)
    (hcap : 0 < cap) (hcomm : Std.Commutative (D.apply k f))
    (hassoc : Std.Associative (D.apply k f)) {st : Nat → RankStore D ω} (hst : G.Ready f k st)
    {s : Net Nat Addr β (Local D ω)} (hs : Reaches cap (G.initial allreduce_ring st) s)
    (hfin : s.Finished) :
    ∀ r < G.world, (s.node r).prog = .ret () ∧
      ∀ i < G.numel, G.tensor f (stores s) r i = G.result D f k fun q => G.tensor f st q i := by
  obtain ⟨hholds, hret, -⟩ :=
    finished_run (allreduce_ring_triple hcap hw hn (G.tensor f st)) hst hs hfin
  refine fun r hr => ⟨hret r, fun i hi => ?_⟩
  rw [hholds.tensor_eq r hr i hi, ringFold_eq_reduce hcomm hassoc (owner_lt (by omega) hi)]
  rfl

theorem allreduce_ring_small :
    ∃ s : Net Nat Addr Nat (Local natDevice Unit),
      Reaches 1 ((smallGroup .SUM).initial allreduce_ring smallStores) s ∧ s.Finished ∧
        ∀ r < 3, ∀ i < 4, (smallGroup .SUM).tensor .f32 (stores s) r i = 30 + 3 * i := by
  obtain ⟨st', -, hout⟩ := (allreduce_ring_triple (k := .add) (G := smallGroup .SUM) one_pos
    (by decide) (by decide) _).outcome ⟨smallGroup_ready, fun _ _ _ _ => rfl⟩
  refine ⟨done st', hout.reaches .refl, done_finished st', fun r hr i hi => ?_⟩
  have h := (allreduce_ring_reduces (smallGroup .SUM) (by decide) (by decide) one_pos
    natDevice_add_comm natDevice_add_assoc smallGroup_ready (hout.reaches .refl)
    (done_finished st') r hr).2 i hi
  exact h.trans (smallGroup_result i hi)

end AllreduceGroup

end Mccl
