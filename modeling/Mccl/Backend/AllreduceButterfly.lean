import Mccl.Backend.AllreduceGroup

/-! # The Butterfly Allreduce

    In the first phase rank `r` receives chunk `r` of every peer, each into a
    slot of its own; the slots are numbered by the peers in ascending order,
    without `r` itself. Rank `r` then folds the slots into its chunk, and the
    second phase distributes the finished chunks. -/

namespace Mccl

open ForkJoin Arrays Reduction

/-! ## Slots -/

/-- The slot of peer `p` at rank `r`. -/
def slotOf (r p : Nat) : Nat := if p < r then p else p - 1

/-- The peer of slot `s` at rank `r`. -/
def peerOf (r s : Nat) : Nat := if s < r then s else s + 1

theorem peerOf_slotOf {r p : Nat} (h : p ≠ r) : peerOf r (slotOf r p) = p := by
  unfold peerOf slotOf
  split_ifs <;> omega

theorem slotOf_peerOf (r s : Nat) : slotOf r (peerOf r s) = s := by
  unfold peerOf slotOf
  split_ifs <;> omega

theorem peerOf_ne (r s : Nat) : peerOf r s ≠ r := by
  unfold peerOf
  split <;> omega

theorem peerOf_lt {w r s : Nat} (hs : s < w - 1) : peerOf r s < w := by
  unfold peerOf
  split <;> omega

theorem slotOf_lt {w r p : Nat} (hr : r < w) (hp : p < w) (h : p ≠ r) : slotOf r p < w - 1 := by
  unfold slotOf
  split <;> omega

theorem slotOf_ne {r p q : Nat} (hp : p ≠ r) (hq : q ≠ r) (h : p ≠ q) : slotOf r p ≠ slotOf r q := by
  intro heq
  exact h (by rw [← peerOf_slotOf hp, heq, peerOf_slotOf hq])

/-! ## Values -/

section values
variable {α : Type} {op : α → α → α} {x : Nat → α}

/-- The input of rank `r`, and then those of its first `j` peers. -/
def butterflyFold (op : α → α → α) (x : Nat → α) (r : Nat) : Nat → α
  | 0 => x r
  | j + 1 => op (butterflyFold op x r j) (x (peerOf r j))

theorem butterflyFold_combines (r j : Nat) :
    Combines op x (r :: (List.range j).map (peerOf r)) (butterflyFold op x r j) := by
  induction j with
  | zero => exact .value r
  | succ j ih =>
    rw [List.range_succ, List.map_append, ← List.cons_append]
    exact .combine ih (.value (peerOf r j))

theorem perm_peers {w r : Nat} (hr : r < w) :
    (r :: (List.range (w - 1)).map (peerOf r)).Perm (List.range w) := by
  apply perm_range
  · apply List.Nodup.cons
    · intro hmem
      obtain ⟨s, -, hs⟩ := List.mem_map.mp hmem
      exact peerOf_ne r s hs
    · apply List.nodup_range.map
      intro s s' heq
      rw [← slotOf_peerOf r s, heq, slotOf_peerOf]
  · intro p hp
    rcases List.mem_cons.mp hp with rfl | hp
    · exact hr
    · obtain ⟨s, hs, rfl⟩ := List.mem_map.mp hp
      exact peerOf_lt (List.mem_range.mp hs)
  · simp only [List.length_cons, List.length_map, List.length_range]
    omega

theorem butterflyFold_combines_all {w r : Nat} (hr : r < w) :
    Combines op x (List.range w) (butterflyFold op x r (w - 1)) :=
  .perm (perm_peers hr) (butterflyFold_combines r (w - 1))

theorem butterflyFold_eq_reduce (hcomm : Std.Commutative op) (hassoc : Std.Associative op)
    {w r : Nat} (hr : r < w) : butterflyFold op x r (w - 1) = reduce op x (w - 1) := by
  apply Combines.eq_reduce hcomm hassoc
  rw [Nat.sub_add_cancel (by omega)]
  exact butterflyFold_combines_all hr

end values

/-! ## Programs -/

namespace AllreduceGroup

variable {β : Type} {D : Device β} {ω : Type} {f : Format} {k : BinaryOp} {cap : ℕ∞}
  (G : AllreduceGroup)

/-- Where slot `s` of rank `r` is. -/
def slotAt (r s : Nat) : Addr :=
  ((G.scratchAt r).1, (G.scratchAt r).2 + s * (G.chunk r).byte_len)

/-- The bytes of slot `s` of rank `r`. -/
def slotSpan (r s : Nat) : List Addr := span (G.slotAt r s) (G.chunk r).byte_len

theorem disjoint_slotSpan (r : Nat) {s s' : Nat} (h : s ≠ s') :
    List.Disjoint (G.slotSpan r s) (G.slotSpan r s') := by
  have key : ∀ {s s' : Nat}, s < s' → List.Disjoint (G.slotSpan r s) (G.slotSpan r s') := by
    intro s s' hlt
    refine disjoint_span_of_le _ ?_
    have := Nat.mul_le_mul_right (G.chunk r).byte_len (Nat.succ_le_of_lt hlt)
    rw [Nat.succ_mul] at this
    simp only [slotAt]
    omega
  rcases Nat.lt_or_gt_of_ne h with hlt | hlt
  · exact key hlt
  · exact (key hlt).symm

/-- The running counter of the source is the slot of the peer. -/
theorem scatter_threads_eq {r : Nat} (hr : r < G.world) :
    butterfly_scatter_threads (G.args r) r G.world (G.tensorAt r) (G.scratchAt r)
        (List.range G.world) 0 =
      Triple.completeThreads G.ranks (G.chunkSpan (G.tensorAt r))
        (fun p => G.slotSpan r (slotOf r p)) r := by
  have key : ∀ n a slot, slot = (if a ≤ r then a else a - 1) →
      butterfly_scatter_threads (G.args r) r G.world (G.tensorAt r) (G.scratchAt r)
        (List.range' a n) slot =
      Triple.completeThreads (List.range' a n) (G.chunkSpan (G.tensorAt r))
        (fun p => G.slotSpan r (slotOf r p)) r := by
    intro n
    induction n with
    | zero => exact fun _ _ _ => rfl
    | succ n ih =>
      intro a slot hslot
      rw [List.range'_succ, butterfly_scatter_threads, Triple.completeThreads, List.flatMap_cons]
      by_cases har : a = r
      · rw [if_pos har, if_pos har, ih (a + 1) slot (by split_ifs at * <;> omega)]
        rfl
      · have hslot' : slot = slotOf r a := by
          unfold slotOf
          split_ifs at * <;> omega
        rw [if_neg har, if_neg har, ih (a + 1) (slot + 1) (by split_ifs at * <;> omega)]
        simp only [G.chunkize_eq hr, hslot']
        rfl
  rw [List.range_eq_range', ranks, List.range_eq_range']
  exact key G.world 0 0 (by simp)

theorem gather_threads_eq {r : Nat} (hr : r < G.world) :
    butterfly_gather_threads (G.args r) r G.world (G.tensorAt r) (List.range G.world) =
      Triple.completeThreads G.ranks (fun _ => G.chunkSpan (G.tensorAt r) r)
        (G.chunkSpan (G.tensorAt r)) r := by
  have key : ∀ l : List Nat,
      butterfly_gather_threads (G.args r) r G.world (G.tensorAt r) l =
      Triple.completeThreads l (fun _ => G.chunkSpan (G.tensorAt r) r)
        (G.chunkSpan (G.tensorAt r)) r := by
    intro l
    induction l with
    | nil => rfl
    | cons p l ih =>
      rw [butterfly_gather_threads, Triple.completeThreads, List.flatMap_cons]
      by_cases hpr : p = r
      · rw [if_pos hpr, if_pos hpr, ih]
        rfl
      · rw [if_neg hpr, if_neg hpr, ih]
        simp only [G.chunkize_eq hr]
        rfl
  exact key _

variable {G}

/-- Slot `s` of rank `r` holds what the peer of that slot sent: its input for
    chunk `r`. -/
def Slots (G : AllreduceGroup) (f : Format) (x : Nat → Nat → D.F f)
    (st : Nat → RankStore D ω) : Prop :=
  ∀ r < G.world, ∀ s < G.world - 1, ∀ i < G.numel, G.owner i = r →
    elem (D.codec f) (st r).mem (G.slotAt r s) (i - (G.chunk r).elem_start) = x (peerOf r s) i

theorem Slots.of_scratch_eq {x : Nat → Nat → D.F f} {st st' : Nat → RankStore D ω}
    (h : G.Slots f x st)
    (hmem : ∀ r < G.world, ∀ n, (st' r).mem ((G.scratchAt r).1, n) = (st r).mem ((G.scratchAt r).1, n)) :
    G.Slots f x st' := by
  intro r hr s hs i hi howner
  rw [← h r hr s hs i hi howner]
  exact elem_congr fun _ _ => hmem r hr _

theorem Slots.execOn {x : Nat → Nat → D.F f} {st : Nat → RankStore D ω} (h : G.Slots f x st)
    (p : Nat → Prop) [DecidablePred p] {c : Nat → Cmd D}
    (hc : ∀ r, (c r).dst.1 = (G.tensorAt r).1) : G.Slots f x (execOn p c st) := by
  refine h.of_scratch_eq fun r _ n => ?_
  unfold AllreduceGroup.execOn
  split
  · exact Cmd.exec_of_ne (hc r ▸ G.scratch_ne r)
  · rfl

theorem butterfly_scatter_triple (hcap : 0 < cap) (hw : 0 < G.world) (x : Nat → Nat → D.F f) :
    Triple cap G.ranks (G.Holds f k x (ω := ω))
      (fun r => .fork (Triple.completeThreads G.ranks (G.chunkSpan (G.tensorAt r))
        (fun p => G.slotSpan r (slotOf r p)) r))
      (fun st => G.Holds f k x st ∧ G.Slots f x st) := by
  refine Triple.complete (fun r => G.chunkSpan (G.tensorAt r))
    (fun r p => G.slotSpan r (slotOf r p)) hcap List.nodup_range ?_ ?_ ?_ ?_ ?_ ?_
  · intro r _ p _ _
    simp [chunkSpan, slotSpan]
  · exact fun r _ p _ _ => nodup_span _ _
  · exact fun r _ p _ _ q _ _ => disjoint_span_of_ne _ _ (G.scratch_ne r).symm
  · exact fun r _ p _ hp q _ hq hpq => G.disjoint_slotSpan r (slotOf_ne hp hq hpq)
  · intro st h r hr p hp
    rw [mem_ranks] at hr hp
    exact h.ready.tag r hr p hp
  · intro st st' h haux htag hmoved hframe
    have hsize := h.ready.size_eq hw
    refine ⟨⟨h.ready.of_eq haux htag, fun r hr i hi => ?_⟩, fun r hr s hs i hi howner => ?_⟩
    · rw [← h.tensor_eq r hr i hi]
      refine elem_congr fun b _ => hframe r (G.mem_ranks.mpr hr) _ fun p _ _ hmem => ?_
      exact G.scratch_ne r (mem_span.mp hmem).1.symm
    · have hp := peerOf_lt (r := r) hs
      rw [← h.tensor_eq _ hp i hi]
      refine elem_of_chunkSpan hw hsize (fun b y z hy hz => ?_) hi howner
      refine hmoved r (G.mem_ranks.mpr hr) _ (G.mem_ranks.mpr hp) (peerOf_ne r s) b y z hy ?_
      rwa [slotOf_peerOf]

theorem butterfly_reduce_slot_triple (hw : 0 < G.world) {s : Nat} (hs : s < G.world - 1)
    (x v : Nat → Nat → D.F f) :
    Triple cap G.ranks (fun st : Nat → RankStore D ω => G.Holds f k v st ∧ G.Slots f x st)
      (fun r => butterfly_reduce_slot (G.args r) G.op r G.world s)
      (fun st => G.Holds f k (fun r i => if G.owner i = r then
        D.apply k f (v r i) (x (peerOf r s) i) else v r i) st ∧ G.Slots f x st) := by
  have hkernel : Triple cap G.ranks
      (fun st : Nat → RankStore D ω => G.Holds f k v st ∧ G.Slots f x st)
      (fun r => if r < G.world then
        metal_reduce_op_view (view_at (G.args r).t_view (G.chunk r).byte_off)
          (view_at (G.args r).recv_view (s * (G.chunk r).byte_len)) G.dtype
          (G.chunk r).elem_count G.op else .ret ())
      (fun st => G.Holds f k (fun r i => if G.owner i = r then
        D.apply k f (v r i) (x (peerOf r s) i) else v r i) st ∧ G.Slots f x st) := by
    refine reduce_view_triple cap (· < G.world) (fun _ h => h) (fun st h => h.1.ready)
      fun st h => ?_
    obtain ⟨h, hslots⟩ := h
    refine ⟨⟨h.ready.execOn _ _, fun r hr i hi => ?_⟩, hslots.execOn _ fun _ => rfl⟩
    have hexec := elem_reduce_chunk (k := k) hw (h.ready.size_eq hw) (st r).mem (G.tensorAt r)
      (G.slotAt r s) r hi
    simp only [tensor, AllreduceGroup.execOn, hr, if_true, execCmd_mem]
    refine hexec.trans ?_
    by_cases howner : G.owner i = r
    · rw [if_pos howner, if_pos howner, ← h.tensor_eq r hr i hi, ← hslots r hr s hs i hi howner]
      rfl
    · rw [if_neg howner, if_neg howner, ← h.tensor_eq r hr i hi]
      rfl
  refine hkernel.congr fun r hr => ?_
  rw [mem_ranks] at hr
  simp only [butterfly_reduce_slot, G.chunkize_eq hr, G.dtype_eq r hr, hr, if_true]

theorem butterfly_gather_triple (hcap : 0 < cap) (hw : 0 < G.world) (x v : Nat → Nat → D.F f) :
    Triple cap G.ranks (fun st : Nat → RankStore D ω => G.Holds f k v st ∧ G.Slots f x st)
      (fun r => .fork (Triple.completeThreads G.ranks (fun _ => G.chunkSpan (G.tensorAt r) r)
        (G.chunkSpan (G.tensorAt r)) r))
      (fun st => G.Holds f k (fun _ i => v (G.owner i) i) st ∧ G.Slots f x st) := by
  refine Triple.complete (fun r _ => G.chunkSpan (G.tensorAt r) r)
    (fun r => G.chunkSpan (G.tensorAt r)) hcap List.nodup_range ?_ ?_ ?_ ?_ ?_ ?_
  · intro r _ p _ _
    simp [chunkSpan]
  · exact fun r _ p _ _ => nodup_span _ _
  · exact fun r _ p _ _ q _ hq => disjoint_chunkSpan _ hq.symm
  · exact fun r _ p _ _ q _ _ hpq => disjoint_chunkSpan _ hpq
  · intro st h r hr p hp
    rw [mem_ranks] at hr hp
    exact h.1.ready.tag r hr p hp
  · intro st st' h haux htag hmoved hframe
    obtain ⟨h, hslots⟩ := h
    have hsize := h.ready.size_eq hw
    refine ⟨⟨h.ready.of_eq haux htag, fun r hr i hi => ?_⟩, hslots.of_scratch_eq fun r hr n => ?_⟩
    · have howner := owner_lt hw hi
      rw [← h.tensor_eq _ howner i hi]
      by_cases heq : G.owner i = r
      · -- The own chunk stays.
        subst heq
        exact elem_of_chunk_eq hw hsize hi fun a ha =>
          hframe _ (G.mem_ranks.mpr hr) a fun p _ hp ha' => disjoint_chunkSpan _ hp.symm ha ha'
      · refine elem_of_chunkSpans hw hsize (fun b y z hy hz => ?_) hi rfl
        exact hmoved r (G.mem_ranks.mpr hr) _ (G.mem_ranks.mpr howner) heq b y z hy hz
    · refine hframe r (G.mem_ranks.mpr hr) _ fun p _ _ hmem => ?_
      exact G.scratch_ne r (mem_span.mp hmem).1

/-- The scratch holds one slot per peer. -/
def ScratchFits (G : AllreduceGroup) : Prop :=
  ∀ r < G.world, (G.world - 1) * (G.chunk r).byte_len ≤ (G.args r).recv_view.nbytes

theorem allreduce_butterfly_eq (G : AllreduceGroup) {r : Nat} (hr : r < G.world)
    (hn : G.world ≤ G.numel) (hfit : G.ScratchFits) :
    (allreduce_butterfly (G.args r) G.op r G.world : Prog D ω Unit) = (do
      .fork (Triple.completeThreads G.ranks (G.chunkSpan (G.tensorAt r))
        (fun p => G.slotSpan r (slotOf r p)) r)
      forM (List.range (G.world - 1)) (butterfly_reduce_slot (G.args r) G.op r G.world)
      .fork (Triple.completeThreads G.ranks (fun _ => G.chunkSpan (G.tensorAt r) r)
        (G.chunkSpan (G.tensorAt r)) r)
      average (G.args r) G.op G.world) := by
  have hfit' : (G.world - 1) * (chunkize G.numel (G.args r).esize G.world r).byte_len ≤
      (G.args r).recv_view.nbytes := by
    rw [G.esize_eq hr]
    exact hfit r hr
  simp only [allreduce_butterfly, G.numel_eq r hr, Proc.check_pos hn, Proc.check_pos hfit',
    Proc.ret_bind, G.byte_ptr_t hr, G.byte_ptr_recv hr, Nat.add_zero, Prod.mk.eta,
    G.scatter_threads_eq hr, G.gather_threads_eq hr]

/-- The butterfly folds every chunk on its owner. -/
theorem allreduce_butterfly_triple (hcap : 0 < cap) (hw : 2 ≤ G.world) (hn : G.world ≤ G.numel)
    (hfit : G.ScratchFits) (x : Nat → Nat → D.F f) :
    Triple cap G.ranks (G.Holds f k x (ω := ω))
      (fun r => allreduce_butterfly (G.args r) G.op r G.world)
      (fun st => G.Holds f k (fun _ i => G.scaled D f
        (butterflyFold (D.apply k f) (fun q => x q i) (G.owner i) (G.world - 1))) st ∧
        G.Slots f x st) := by
  let v (j r i : Nat) : D.F f :=
    if G.owner i = r then butterflyFold (D.apply k f) (fun q => x q i) r j else x r i
  have hscatter := butterfly_scatter_triple (G := G) (k := k) (ω := ω) hcap (by omega) x
  have hfold : Triple cap G.ranks
      (fun st : Nat → RankStore D ω => G.Holds f k (v 0) st ∧ G.Slots f x st)
      (fun r => forM (List.range (G.world - 1)) (butterfly_reduce_slot (G.args r) G.op r G.world))
      (fun st => G.Holds f k (v (G.world - 1)) st ∧ G.Slots f x st) := by
    refine .forM (fun j st => G.Holds f k (v j) st ∧ G.Slots f x st) fun s hs => ?_
    refine (butterfly_reduce_slot_triple (by omega) hs x (v s)).conseq (fun _ h => h)
      fun st h => ⟨h.1.congr fun r _ i _ => ?_, h.2⟩
    by_cases howner : G.owner i = r
    · simp only [v, howner, if_true]
      rfl
    · simp only [v, howner, if_false]
  have hgather := butterfly_gather_triple (G := G) (k := k) (ω := ω) hcap (by omega) x (v (G.world - 1))
  have haverage := G.average_triple (k := k) cap (fun _ i => v (G.world - 1) (G.owner i) i)
    (I := fun st : Nat → RankStore D ω => G.Slots f x st)
    fun st h => h.execOn _ fun _ => rfl
  have hstart : ∀ st : Nat → RankStore D ω, G.Holds f k x st ∧ G.Slots f x st →
      G.Holds f k (v 0) st ∧ G.Slots f x st := fun st h => by
    refine ⟨h.1.congr fun r _ i _ => ?_, h.2⟩
    simp only [v, butterflyFold]
    split <;> rfl
  have hall := (hscatter.conseq (fun _ h => h) hstart).seq (hfold.seq (hgather.seq haverage))
  refine (hall.congr fun r hr => ?_).conseq (fun _ h => h) fun st h => ⟨h.1.congr fun r _ i _ => ?_, h.2⟩
  · exact G.allreduce_butterfly_eq (G.mem_ranks.mp hr) hn hfit
  · simp only [v, if_true]

/-- **The butterfly allreduce reduces.** In every complete run of all ranks,
    over channels of any capacity, every rank returns with the element-wise
    reduction of all inputs; the contribution of every peer is in its own slot
    of the scratch, and the slots do not overlap and lie inside the scratch. -/
theorem allreduce_butterfly_reduces (G : AllreduceGroup) (hw : 2 ≤ G.world)
    (hn : G.world ≤ G.numel) (hfit : G.ScratchFits) (hcap : 0 < cap)
    (hcomm : Std.Commutative (D.apply k f)) (hassoc : Std.Associative (D.apply k f))
    {st : Nat → RankStore D ω} (hst : G.Ready f k st)
    {s : Net Nat Addr β (Local D ω)} (hs : Reaches cap (G.initial allreduce_butterfly st) s)
    (hfin : s.Finished) :
    (∀ r < G.world, (s.node r).prog = .ret () ∧
      ∀ i < G.numel, G.tensor f (stores s) r i = G.result D f k fun q => G.tensor f st q i) ∧
    (∀ r < G.world, ∀ p < G.world, p ≠ r → ∀ i < G.numel, G.owner i = r →
      elem (D.codec f) (stores s r).mem (G.slotAt r (slotOf r p)) (i - (G.chunk r).elem_start) =
        G.tensor f st p i) ∧
    (∀ r < G.world, ∀ p < G.world, p ≠ r →
      (slotOf r p + 1) * (G.chunk r).byte_len ≤ (G.args r).recv_view.nbytes ∧
      ∀ q < G.world, q ≠ r → p ≠ q →
        List.Disjoint (G.slotSpan r (slotOf r p)) (G.slotSpan r (slotOf r q))) := by
  obtain ⟨⟨hholds, hslots⟩, hret, -⟩ :=
    finished_run (allreduce_butterfly_triple hcap hw hn hfit (G.tensor f st)) hst hs hfin
  refine ⟨fun r hr => ⟨hret r, fun i hi => ?_⟩, ?_, ?_⟩
  · rw [hholds.tensor_eq r hr i hi,
      butterflyFold_eq_reduce hcomm hassoc (owner_lt (by omega) hi)]
    rfl
  · intro r hr p hp hpr i hi howner
    rw [hslots r hr _ (slotOf_lt hr hp hpr) i hi howner, peerOf_slotOf hpr]
  · intro r hr p hp hpr
    refine ⟨?_, fun q hq hqr hpq => G.disjoint_slotSpan r (slotOf_ne hpr hqr hpq)⟩
    exact (Nat.mul_le_mul_right _ (slotOf_lt hr hp hpr)).trans (hfit r hr)

theorem allreduce_butterfly_small :
    ∃ s : Net Nat Addr Nat (Local natDevice Unit),
      Reaches 1 ((smallGroup .SUM).initial allreduce_butterfly smallStores) s ∧ s.Finished ∧
        ∀ r < 3, ∀ i < 4, (smallGroup .SUM).tensor .f32 (stores s) r i = 30 + 3 * i := by
  have hfit : (smallGroup .SUM).ScratchFits := by
    unfold ScratchFits
    decide
  obtain ⟨st', -, hout⟩ := (allreduce_butterfly_triple (k := .add) (G := smallGroup .SUM) one_pos
    (by decide) (by decide) hfit _).outcome ⟨smallGroup_ready, fun _ _ _ _ => rfl⟩
  have h := allreduce_butterfly_reduces (smallGroup .SUM) (by decide) (by decide) hfit one_pos
    natDevice_add_comm natDevice_add_assoc smallGroup_ready (hout.reaches .refl)
    (done_finished st')
  exact ⟨done st', hout.reaches .refl, done_finished st',
    fun r hr i hi => ((h.1 r hr).2 i hi).trans (smallGroup_result i hi)⟩

end AllreduceGroup

end Mccl
