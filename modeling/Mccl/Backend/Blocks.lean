import Mccl.Backend.Rounds

/-! # Allgather and All-to-All of Blocks

    The round of `_allgather_base` and `alltoall_base`: what the ranks do before
    and after they exchange the blocks of one tensor. The rounds hold for shared
    and private storage; what ends up in the outputs is stated for shared
    storage. -/

namespace Mccl

open ForkJoin Arrays

variable {D : Device UInt8} {w : Nat}

/-! ## Blocks of one buffer

    `_allgather_base` and `alltoall_base` collect the blocks in one buffer on
    the heap, which is then copied to the output. Block `p` of the input of rank
    `r` has `len r p` bytes from `srcOff r p` on; in the output of rank `p` it
    is at `dstOff p r`. -/

/-- The blocks of an output lie one behind the other. -/
structure Layout (w : Nat) (len dstOff : Nat → Nat → Nat) (output : Nat → Tensor) : Prop where
  ordered : ∀ r < w, ∀ p q, p < q → q < w → dstOff r p + len p r ≤ dstOff r q
  inside : ∀ r < w, ∀ p < w, dstOff r p + len p r ≤ (output r).nbytes

/-- Block `p` of the output of rank `r` is block `r` of the input of rank `p`. -/
structure BlocksSpec (w : Nat) (len srcOff dstOff : Nat → Nat → Nat) (output input : Nat → Tensor)
    (m : Nat → Addr → UInt8) (r : Nat) (m' : Addr → UInt8) : Prop where
  bytes : ∀ p < w, ∀ j < len p r,
    (output r).byte m' (dstOff r p + j) = (input p).byte (m p) (srcOff p r + j)
  frame : Untouched [output r] (m r) m'

section blocks
variable {len srcOff dstOff : Nat → Nat → Nat} {output input : Nat → Tensor}

theorem Layout.disjoint (h : Layout w len dstOff output) {r p q : Nat} (hr : r < w) (hp : p < w)
    (hq : q < w) (hpq : p ≠ q) : List.Disjoint (span (off (heap 0) (dstOff r p)) (len p r))
      (span (off (heap 0) (dstOff r q)) (len q r)) := by
  rcases Nat.lt_or_gt_of_ne hpq with hlt | hlt
  · have := h.ordered r hr p q hlt hq
    exact disjoint_span_of_le _ (by simpa [off, heap] using this)
  · have := h.ordered r hr q p hlt hp
    exact List.Disjoint.symm (disjoint_span_of_le _ (by simpa [off, heap] using this))

/-- Rank `r` in front of the exchange of blocks. -/
structure BlocksStaged (w : Nat) (len srcOff dstOff : Nat → Nat → Nat) (output input : Nat → Tensor)
    (st : Nat → RankState D) (r : Nat) (x : Staged Addr UInt8 (Local D Host)) : Prop where
  src : x.src = fun p => span (off (stagedAt (input r) (st r)) (srcOff r p)) (len r p)
  dst : x.dst = fun p => span (off (heap 0) (dstOff r p)) (len p r)
  post : x.post = unstage_from_recv (output r) (heap 0) (output r).nbytes
  calm : Calm (st r) x.store
  user : (input r).shared = true → SameUser (st r).mem x.store.mem
  own : (input r).shared = true → ∀ j < len r r,
    x.store.mem ((heap 0).1, (heap 0).2 + (dstOff r r + j)) =
      (input r).byte (st r).mem (srcOff r r + j)

/-- The store with the rank's own block in the buffer. -/
def ownBlock (input : Tensor) (total a b n : Nat) (s : RankState D) : RankState D :=
  let m := fill (staged input s).mem (heap 0) total 0
  { staged input s with mem := copy m (off (heap 0) b) (off (stagedAt input s) a) n }

theorem ownBlock_calm (input : Tensor) (total a b n : Nat) (s : RankState D) :
    Calm s (ownBlock input total a b n s) :=
  (staged_calm input s).trans (.of_mem _ _)

theorem blocks_staged {r : Nat} (hin : (input r).Valid) (st : Nat → RankState D) :
    BlocksStaged w len srcOff dstOff output input st r
      ⟨ownBlock (input r) (output r).nbytes (srcOff r r) (dstOff r r) (len r r) (st r),
        fun p => span (off (stagedAt (input r) (st r)) (srcOff r p)) (len r p),
        fun p => span (off (heap 0) (dstOff r p)) (len p r),
        unstage_from_recv (output r) (heap 0) (output r).nbytes⟩ where
  src := rfl
  dst := rfl
  post := rfl
  calm := ownBlock_calm _ _ _ _ _ _
  user := fun hsh => by
    simp only [ownBlock, staged_shared hsh, stagedAt_shared hsh]
    exact (fill_sameUser (by simp [heap]) _ _ _).trans (copy_sameUser (by simp [off, heap]) _ _ _)
  own := fun hsh j hj => by
    simp only [ownBlock, staged_shared hsh, stagedAt_shared hsh]
    rw [← Nat.add_assoc]
    refine (copy_at _ (off (heap 0) (dstOff r r)) _ hj).trans ?_
    simp only [off, Nat.add_assoc]
    exact fill_of_ne (hin.user.ne_heap 0)

theorem blocks_post (hlay : Layout w len dstOff output) (hin : ∀ r < w, (input r).Valid)
    (hout : ∀ r < w, (output r).Valid) {st : Nat → RankState D}
    {x : Nat → Staged Addr UInt8 (Local D Host)}
    (hx : ∀ r < w, BlocksStaged w len srcOff dstOff output input st r (x r))
    {st₂ : Nat → RankState D} (hst₂ : Exchanged w x st₂) {r : Nat} (hr : r < w) :
    ∃ s, Computes (x r).post (st₂ r) s () ∧ Calm (st r) s ∧ (AllShared w output input →
        BlocksSpec w len srcOff dstOff output input (mems st) r s.mem) := by
  have hxr := hx r hr
  refine ⟨unstaged (output r) (heap 0) (st₂ r), ?_, ?_, fun hsh => ?_⟩
  · rw [hxr.post]
    exact unstage_computes (hout r hr).toOk _ rfl _
  · exact (hxr.calm.trans (.of_aux (hst₂.tag r) (hst₂.aux r))).trans (unstaged_calm _ _ _)
  rw [unstaged_mem (hsh r hr).2]
  constructor
  · intro p hp j hj
    have hlt : dstOff r p + j < (output r).nbytes := by
      have := hlay.inside r hr p hp
      omega
    rw [copy_byte _ _ hlt]
    by_cases hpr : p = r
    · -- The rank's own block was copied before the exchange, and nothing was received there.
      subst hpr
      refine Eq.trans (hst₂.frame p hr _ fun q hq hqp hmem => ?_) (hxr.own (hsh p hr).1 j hj)
      simp only [hxr.dst] at hmem
      refine hlay.disjoint hr hq hr hqp hmem (mem_span.mpr ⟨rfl, ?_, ?_⟩) <;>
        simp only [off, heap] <;> omega
    · have hxp := hx p hp
      have hsrc : ((x p).src r)[j]? =
          some ((input p).addr.1, (input p).addr.2 + (srcOff p r + j)) := by
        simp only [hxp.src, stagedAt_shared (hsh p hp).1]
        rw [getElem?_span _ hj]
        simp only [off, Nat.add_assoc]
      have hdst : ((x r).dst p)[j]? = some ((heap 0).1, (heap 0).2 + (dstOff r p + j)) := by
        simp only [hxr.dst]
        rw [getElem?_span _ hj]
        simp only [off, Nat.add_assoc]
      rw [hst₂.moved r hr p hp hpr j _ _ hsrc hdst]
      exact (hxp.user (hsh p hp).1).byte (hin p hp).user _
  · have hsame : SameUser (x r).store.mem (st₂ r).mem := by
      intro id j
      refine hst₂.frame r hr _ fun q hq hqr hmem => ?_
      simp [hxr.dst, mem_span, off, heap] at hmem
    exact ((hxr.user (hsh r hr).1).trans hsame).untouched (copy_untouched _ _ _)

end blocks

/-! ## `_allgather_base` -/

/-- The arguments of the ranks fit together: blocks of `chunk` bytes. -/
structure AllgatherBaseOk (w chunk : Nat) (output input : Nat → Tensor) : Prop where
  input_valid : ∀ r < w, (input r).Valid
  output_valid : ∀ r < w, (output r).Valid
  input_nbytes : ∀ r < w, (input r).nbytes = chunk
  output_nbytes : ∀ r < w, (output r).nbytes = chunk * w

/-- The output of rank `r` is the concatenation of the inputs. -/
abbrev AllgatherBaseSpec (w chunk : Nat) : (output input : Nat → Tensor) →
    (m : Nat → Addr → UInt8) → (r : Nat) → (m' : Addr → UInt8) → Prop :=
  BlocksSpec w (fun _ _ => chunk) (fun _ _ => 0) fun _ p => p * chunk

section allgather_base
variable {chunk : Nat} {output input : Nat → Tensor}

theorem AllgatherBaseOk.layout (h : AllgatherBaseOk w chunk output input) :
    Layout w (fun _ _ => chunk) (fun _ p => p * chunk) output where
  ordered := fun _ _ p q hpq _ => by
    rw [← Nat.succ_mul]
    exact Nat.mul_le_mul_right _ hpq
  inside := fun r hr p hp => by
    rw [← Nat.succ_mul, h.output_nbytes r hr, Nat.mul_comm chunk]
    exact Nat.mul_le_mul_right _ hp

theorem _allgather_base_raceFree {input : Tensor} (h : input.Valid) (output : Tensor) (r : Nat) :
    (_allgather_base_body r w output input : RankProg D Unit).RaceFree := by
  refine .bind (check_mps_straight _ _).raceFree fun _ => .bind (check_mps_straight _ _).raceFree fun _ =>
    .bind_of (stage_straight _).raceFree (stage_returns h.toOk) fun sb hsb => .bind (.check _ _) fun _ =>
    .bind (fun _ => trivial) fun _ => .bind (fun _ => trivial) fun _ =>
    .bind ⟨?_, trivial⟩ fun _ => (unstage_straight _ _ _).raceFree
  refine sendRecv_indep (nodup_peers r w) (fun p _ q _ _ => ?_) fun p _ q _ hpq => ?_
  · exact disjoint_span_of_ne _ _ (staged_ne_heap h hsb.2 0)
  · rcases Nat.lt_or_gt_of_ne hpq with hlt | hlt
    · refine disjoint_span_of_le _ ?_
      have := Nat.mul_le_mul_right sb.nbytes (Nat.succ_le_of_lt hlt)
      simp only [off, heap, Nat.succ_mul] at *
      omega
    · refine List.Disjoint.symm (disjoint_span_of_le _ ?_)
      have := Nat.mul_le_mul_right sb.nbytes (Nat.succ_le_of_lt hlt)
      simp only [off, heap, Nat.succ_mul] at *
      omega

theorem _allgather_base_round (h : AllgatherBaseOk w chunk output input) {st : Nat → RankState D}
    (htag : SameTag w st) :
    Round w (· = st) (fun r => _allgather_base_body r w (output r) (input r)) (fun _ _ => chunk)
      fun st' => ∀ r < w, Calm (st r) (st' r) ∧ (AllShared w output input →
          AllgatherBaseSpec w chunk output input (mems st) r (st' r).mem) := by
  refine .of_ranks (BlocksStaged w (fun _ _ => chunk) (fun _ _ => 0) (fun _ p => p * chunk) output
      input st)
    (fun r s => Calm (st r) s ∧ (AllShared w output input →
        AllgatherBaseSpec w chunk output input (mems st) r s.mem))
    (fun r hr => _allgather_base_raceFree (h.input_valid r hr) _ r) htag ?_ ?_
  · intro r hr
    have hin := h.input_valid r hr
    have hne (a : Addr) : span a chunk ≠ [] := span_ne_nil a (h.input_nbytes r hr ▸ hin.nbytes_pos)
    refine ⟨_, ⟨⟨?_, ?_, ?_, ?_⟩, ?_⟩, blocks_staged hin st⟩
    · rw [_allgather_base_body, check_mps_eq hin.toOk, Proc.ret_bind,
        check_mps_eq (h.output_valid r hr).toOk, Proc.ret_bind]
      refine (stage_computes hin.toOk (st r) _).trans ?_
      simp only [h.input_nbytes r hr]
      rw [Proc.check_pos (h.output_nbytes r hr), Proc.ret_bind,
        exchangeThreads_of_ne (fun _ _ _ => hne _) fun _ _ _ => hne _]
      exact (vector_computes _ _ _ _).trans ((memcpy_computes _ _ _ _ _).trans .refl)
    · exact fun _ _ _ => length_span _ _
    · exact fun _ _ _ => length_span _ _
    · exact fun _ _ _ => nodup_span _ _
    · exact (ownBlock_calm _ _ _ _ _ _).tag
  · intro x hx st₂ hst₂ r hr
    exact blocks_post h.layout h.input_valid h.output_valid hx hst₂ hr

end allgather_base

/-! ## `alltoall_base` -/

/-- The sum of the first `p` lengths. -/
def blockStart (n : Nat → Nat) : Nat → Nat
  | 0 => 0
  | p + 1 => blockStart n p + n p

theorem blockStart_add_le (n : Nat → Nat) {p q : Nat} (h : p < q) :
    blockStart n p + n p ≤ blockStart n q := by
  induction q with
  | zero => omega
  | succ q ih =>
    rcases Nat.lt_succ_iff_lt_or_eq.mp h with h | rfl
    · have := ih h
      rw [blockStart]
      omega
    · exact Nat.le_refl _

theorem blockStart_le (n : Nat → Nat) {p q : Nat} (h : p ≤ q) : blockStart n p ≤ blockStart n q := by
  rcases Nat.lt_or_eq_of_le h with h | rfl
  · have := blockStart_add_le n h
    omega
  · exact Nat.le_refl _

/-- The tensor is cut into `w` blocks of `n p` elements: evenly, or as the
    split sizes say. -/
structure Splits (w : Nat) (t : Tensor) (n : Nat → Nat) (splits : List Int) : Prop where
  total : blockStart n w = t.numel
  shape : (splits = [] ∧ ∀ p < w, n p = t.numel / w) ∨
    splits = (List.range w).map fun p => (n p : Int)
  representable : t.nbytes < 2 ^ 64

section splits
variable {t : Tensor} {n : Nat → Nat} {splits : List Int}

theorem size_t_natCast {k : Nat} (h : k < 2 ^ 64) : size_t k = k := by
  unfold size_t
  omega

theorem Splits.block_len_eq (h : Splits w t n splits) {p : Nat} (hp : p < w) :
    block_len t splits w p = (n p * t.element_size : Nat) := by
  rcases h.shape with ⟨rfl, hn⟩ | rfl
  · simp [block_len, hn p hp]
  · have hw : w ≠ 0 := by omega
    simp [block_len, hw, hp]

theorem Splits.check_eq (h : Splits w t n splits) (hw : 0 < w) (which : String) :
    (check_blocks t splits w which : RankProg D Unit) = .ret () := by
  rcases h.shape with ⟨rfl, hn⟩ | rfl
  · have hsum : ∀ p ≤ w, blockStart n p = p * (t.numel / w) := by
      intro p hp
      induction p with
      | zero => simp [blockStart]
      | succ p ih => rw [blockStart, ih (by omega), hn p (by omega), Nat.succ_mul]
    have htotal := hsum w (Nat.le_refl w)
    rw [h.total] at htotal
    refine Proc.check_pos (?_ : t.numel / w * t.element_size * w = t.nbytes)
    rw [Tensor.nbytes, Nat.mul_right_comm, Nat.mul_comm (t.numel / w) w, ← htotal]
  · have hw' : w ≠ 0 := by omega
    simp [check_blocks, hw']

theorem Splits.le_nbytes (h : Splits w t n splits) {p : Nat} (hp : p ≤ w) :
    blockStart n p * t.element_size ≤ t.nbytes := by
  rw [Tensor.nbytes, ← h.total]
  exact Nat.mul_le_mul_right _ (blockStart_le n hp)

theorem Splits.offsets_eq (h : Splits w t n splits) {p : Nat} (hp : p ≤ w) :
    offsets (block_len t splits w) p = blockStart n p * t.element_size := by
  induction p with
  | zero => simp [offsets, blockStart]
  | succ p ih =>
    have hle := h.le_nbytes hp
    have hlt := h.representable
    rw [blockStart, Nat.add_mul] at *
    rw [offsets, ih (by omega), h.block_len_eq (by omega), ← Nat.cast_add, size_t_natCast (by omega)]

theorem Splits.length_eq (h : Splits w t n splits) {p : Nat} (hp : p < w) :
    block_size (offsets (block_len t splits w)) p = n p * t.element_size := by
  have hle := h.le_nbytes (Nat.succ_le_of_lt hp)
  have hlt := h.representable
  rw [blockStart, Nat.add_mul] at hle
  rw [block_size, h.offsets_eq hp, h.offsets_eq hp.le, blockStart, Nat.add_mul, show ((blockStart n p * t.element_size + n p * t.element_size : Nat) : Int) -
    (blockStart n p * t.element_size : Nat) = (n p * t.element_size : Nat) by push_cast; ring]
  exact size_t_natCast (by omega)

end splits

/-- The arguments of the ranks fit together: `n r p` elements of `esize`
    bytes go from `r` to `p`. -/
structure AlltoallBaseOk (w esize : Nat) (n : Nat → Nat → Nat) (output input : Nat → Tensor)
    (output_splits input_splits : Nat → List Int) : Prop where
  input_valid : ∀ r < w, (input r).Valid
  output_valid : ∀ r < w, (output r).Valid
  input_esize : ∀ r < w, (input r).element_size = esize
  output_esize : ∀ r < w, (output r).element_size = esize
  input_splits : ∀ r < w, Splits w (input r) (n r) (input_splits r)
  output_splits : ∀ r < w, Splits w (output r) (fun p => n p r) (output_splits r)

/-- Block `p` of the output of rank `r` is block `r` of the input of rank `p`. -/
abbrev AlltoallBaseSpec (w esize : Nat) (n : Nat → Nat → Nat) : (output input : Nat → Tensor) →
    (m : Nat → Addr → UInt8) → (r : Nat) → (m' : Addr → UInt8) → Prop :=
  BlocksSpec w (fun r p => n r p * esize) (fun r p => blockStart (n r) p * esize)
    fun r p => blockStart (fun q => n q r) p * esize

theorem span_isEmpty (a : Addr) (n : Nat) : (span a n).isEmpty = decide (n = 0) := by
  cases n <;> simp [span, List.range_succ_eq_map]

theorem alltoall_thread_eq (p : Nat) (src dst : Addr) (slen rlen : Nat) :
    alltoall_thread p src dst slen rlen =
      if slen = 0 ∧ rlen = 0 then none else some (exchangeThread p (span src slen) (span dst rlen)) := by
  simp only [alltoall_thread, exchangeThread, span_isEmpty, mesh_send, mesh_recv]
  by_cases hs : slen = 0 <;> by_cases hr : rlen = 0 <;> simp [hs, hr]

theorem alltoall_threads_eq (r : Nat) (src dst : Nat → Addr) (slen rlen : Nat → Nat) :
    (peers r w).filterMap (fun p => alltoall_thread p (src p) (dst p) (slen p) (rlen p)) =
      exchangeThreads w r (fun p => span (src p) (slen p)) fun p => span (dst p) (rlen p) := by
  simp only [exchangeThreads, peers, span_isEmpty, alltoall_thread_eq]
  induction List.range w with
  | nil => rfl
  | cons p l ih =>
    by_cases hpr : p = r
    · simpa [hpr] using ih
    · by_cases hs : slen p = 0 <;> by_cases hr : rlen p = 0 <;>
        simpa [List.filter_cons, hpr, hs, hr] using ih

section alltoall_base
variable {esize : Nat} {n : Nat → Nat → Nat} {output input : Nat → Tensor}
  {output_splits input_splits : Nat → List Int}

theorem AlltoallBaseOk.layout (h : AlltoallBaseOk w esize n output input output_splits input_splits) :
    Layout w (fun r p => n r p * esize) (fun r p => blockStart (fun q => n q r) p * esize)
      output where
  ordered := fun r _ p q hpq _ => by
    rw [← Nat.add_mul]
    exact Nat.mul_le_mul_right _ (blockStart_add_le (fun q => n q r) hpq)
  inside := fun r hr p hp => by
    have := (h.output_splits r hr).le_nbytes (Nat.succ_le_of_lt hp)
    rwa [h.output_esize r hr, blockStart, Nat.add_mul] at this

theorem alltoall_base_raceFree
    (h : AlltoallBaseOk w esize n output input output_splits input_splits) {r : Nat} (hr : r < w) :
    (alltoall_base_body r w (output r) (input r) (output_splits r) (input_splits r) :
      RankProg D Unit).RaceFree := by
  have hcheck : ∀ t splits which, (check_blocks t splits w which : RankProg D Unit).RaceFree := by
    intro t splits which
    unfold check_blocks
    split <;> exact .check _ _
  refine .bind (check_mps_straight _ _).raceFree fun _ => .bind (check_mps_straight _ _).raceFree fun _ =>
    .bind_of (stage_straight _).raceFree (stage_returns (h.input_valid r hr).toOk) fun sb hsb =>
    .bind (.check _ _) fun _ => .bind (hcheck _ _ _) fun _ => .bind (hcheck _ _ _) fun _ =>
    .bind (fun _ => trivial) fun _ => .bind (.check _ _) fun _ => .bind (fun _ => trivial) fun _ =>
    .bind ⟨?_, trivial⟩ fun _ => (unstage_straight _ _ _).raceFree
  have hsplits := h.output_splits r hr
  rw [alltoall_threads_eq]
  refine exchangeThreads_indep (fun p _ q _ _ => ?_) fun p hp q hq hpq => ?_
  · exact disjoint_span_of_ne _ _ (staged_ne_heap (h.input_valid r hr) hsb.2 0)
  · rw [hsplits.length_eq hp, hsplits.length_eq hq, hsplits.offsets_eq hp.le,
      hsplits.offsets_eq hq.le, h.output_esize r hr]
    exact h.layout.disjoint hr hp hq hpq

theorem alltoall_base_round
    (h : AlltoallBaseOk w esize n output input output_splits input_splits) {st : Nat → RankState D}
    (htag : SameTag w st) :
    Round w (· = st)
      (fun r => alltoall_base_body r w (output r) (input r) (output_splits r) (input_splits r))
      (fun r p => n r p * esize) fun st' => ∀ r < w, Calm (st r) (st' r) ∧ (AllShared w output input →
          AlltoallBaseSpec w esize n output input (mems st) r (st' r).mem) := by
  refine .of_ranks (BlocksStaged w (fun r p => n r p * esize) (fun r p => blockStart (n r) p * esize)
      (fun r p => blockStart (fun q => n q r) p * esize) output input st)
    (fun r s => Calm (st r) s ∧ (AllShared w output input →
        AlltoallBaseSpec w esize n output input (mems st) r s.mem))
    (fun r hr => alltoall_base_raceFree h hr) htag ?_ ?_
  · intro r hr
    have hin := h.input_valid r hr
    have hisplits := h.input_splits r hr
    have hosplits := h.output_splits r hr
    have hthreads : ∀ a : Addr, exchangeThreads w r
        (fun p => span (off a (offsets (block_len (input r) (input_splits r) w) p))
          (block_size (offsets (block_len (input r) (input_splits r) w)) p))
        (fun p => span (off (heap 0) (offsets (block_len (output r) (output_splits r) w) p))
          (block_size (offsets (block_len (output r) (output_splits r) w)) p)) =
        exchangeThreads w r (fun p => span (off a (blockStart (n r) p * esize)) (n r p * esize))
          fun p => span (off (heap 0) (blockStart (fun q => n q r) p * esize)) (n p r * esize) := by
      refine fun a => exchangeThreads_congr (fun p hp => ?_) fun p hp => ?_
      · rw [hisplits.length_eq hp, hisplits.offsets_eq hp.le, h.input_esize r hr]
      · rw [hosplits.length_eq hp, hosplits.offsets_eq hp.le, h.output_esize r hr]
    refine ⟨_, ⟨⟨?_, ?_, ?_, ?_⟩, ?_⟩, blocks_staged hin st⟩
    · rw [alltoall_base_body, check_mps_eq hin.toOk, Proc.ret_bind,
        check_mps_eq (h.output_valid r hr).toOk, Proc.ret_bind]
      refine (stage_computes hin.toOk (st r) _).trans ?_
      rw [Proc.check_pos ((h.input_esize r hr).trans (h.output_esize r hr).symm), Proc.ret_bind,
        hisplits.check_eq (by omega), Proc.ret_bind, hosplits.check_eq (by omega), Proc.ret_bind]
      refine (vector_computes _ _ _ _).trans ?_
      simp only [alltoall_threads_eq, hthreads, hisplits.length_eq hr, hosplits.length_eq hr,
        hisplits.offsets_eq hr.le, hosplits.offsets_eq hr.le, h.input_esize r hr,
        h.output_esize r hr]
      rw [Proc.check_pos trivial, Proc.ret_bind]
      exact (memcpy_computes _ _ _ _ _).trans .refl
    · exact fun _ _ _ => length_span _ _
    · exact fun _ _ _ => length_span _ _
    · exact fun _ _ _ => nodup_span _ _
    · exact (ownBlock_calm _ _ _ _ _ _).tag
  · intro x hx st₂ hst₂ r hr
    exact blocks_post h.layout h.input_valid h.output_valid hx hst₂ hr

end alltoall_base

end Mccl
