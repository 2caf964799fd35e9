import Mccl.Backend.Rounds

/-! # Allgather and All-to-All of Lists

    The rounds of `allgather` and `alltoall`: every block has a tensor and a
    receive buffer of its own. -/

namespace Mccl

open ForkJoin Arrays

variable {D : Device UInt8} {w : Nat}

/-! ## Lists of tensors -/

/-- One tensor per rank, and no two of them overlap. -/
structure TensorList (w : Nat) (ts : List Tensor) : Prop where
  length_eq : ts.length = w
  valid : ∀ t ∈ ts, t.Valid
  apart : ts.Pairwise Tensor.Apart

theorem entry_mem {ts : List Tensor} {p : Nat} (h : p < ts.length) : entry ts p ∈ ts := by
  rw [entry, List.getD_eq_getElem _ _ h]
  exact List.getElem_mem h

theorem Tensor.Apart.symm {t u : Tensor} (h : t.Apart u) : u.Apart t := List.Disjoint.symm h

namespace TensorList

variable {ts : List Tensor} (h : TensorList w ts) {p q : Nat}
include h

theorem mem (hp : p < w) : entry ts p ∈ ts := entry_mem (h.length_eq.symm ▸ hp)

theorem entry_valid (hp : p < w) : (entry ts p).Valid := h.valid _ (h.mem hp)

theorem entry_apart (hp : p < w) (hq : q < w) (hpq : p ≠ q) : (entry ts p).Apart (entry ts q) := by
  have hp' : p < ts.length := h.length_eq.symm ▸ hp
  have hq' : q < ts.length := h.length_eq.symm ▸ hq
  have hpair := List.pairwise_iff_getElem.mp h.apart
  simp only [entry, List.getD_eq_getElem _ _ hp', List.getD_eq_getElem _ _ hq']
  rcases Nat.lt_or_gt_of_ne hpq with hlt | hlt
  · exact hpair p q hp' hq' hlt
  · exact (hpair q p hq' hp' hlt).symm

theorem peers_apart (r : Nat) : (peers r w).Pairwise fun p q => (entry ts p).Apart (entry ts q) :=
  List.Pairwise.imp_of_mem
    (fun hp hq hpq => h.entry_apart (mem_peers.mp hp).1 (mem_peers.mp hq).1 hpq) (nodup_peers r w)

theorem ne_heap (hp : p < w) (i : Nat) : (entry ts p).storage ≠ .host i := by
  obtain ⟨id, hid⟩ := (h.entry_valid hp).user
  rw [hid]
  simp

end TensorList

/-- Every tensor `p` of the output list of rank `r` is what rank `p` has for
    rank `r`. -/
structure ListSpec (w : Nat) (outs : Nat → List Tensor) (ins : Nat → Nat → Tensor)
    (m : Nat → Addr → UInt8) (r : Nat) (m' : Addr → UInt8) : Prop where
  bytes : ∀ p < w, ∀ j < (entry (outs r) p).nbytes,
    (entry (outs r) p).byte m' j = (ins p r).byte (m p) j
  frame : Untouched (outs r) (m r) m'

/-! ## The exchange -/

section exchange
variable {x : Nat → Staged Addr UInt8 (Local D Host)} {st₂ : Nat → RankState D} {len : Nat → Nat}
  {r : Nat}

theorem received (hst₂ : Exchanged w x st₂) (hr : r < w) (hdst : (x r).dst = fun p => span (heap p) (len p))
    {p : Nat} (hp : p < w) (hpr : p ≠ r) {t : Tensor} (hsrc : (x p).src r = span t.addr (len p))
    {j : Nat} (hj : j < len p) :
    (st₂ r).mem ((heap p).1, (heap p).2 + j) = t.byte (x p).store.mem j := by
  refine hst₂.moved r hr p hp hpr j _ _ ?_ ?_
  · rw [hsrc, getElem?_span _ hj]
  · rw [hdst, getElem?_span _ hj]

theorem exchanged_sameUser (hst₂ : Exchanged w x st₂) (hr : r < w)
    (hdst : (x r).dst = fun p => span (heap p) (len p)) :
    SameUser (x r).store.mem (st₂ r).mem := by
  intro id j
  refine hst₂.frame r hr _ fun q hq hqr hmem => ?_
  simp [hdst, mem_span, heap] at hmem

end exchange

theorem list_threads_indep {r : Nat} (src : Nat → Addr) (hsrc : ∀ p < w, ∀ i, (src p).1 ≠ .host i)
    (slen rlen : Nat → Nat) : ((peers r w).map fun p =>
      [mesh_send p (src p) (slen p), mesh_recv p (heap p) (rlen p)]).Pairwise Thread.Indep := by
  refine sendRecv_indep (nodup_peers r w) (fun p hp q _ _ => ?_) fun p _ q _ hpq => ?_
  · exact disjoint_span_of_ne _ _ (hsrc p (mem_peers.mp hp).1 q)
  · exact disjoint_span_of_ne _ _ (by simpa [heap] using hpq)

/-! ## `allgather` -/

/-- The arguments of the ranks for one round fit together. -/
structure AllgatherOneOk (w chunk : Nat) (outs : Nat → List Tensor) (input : Nat → Tensor) : Prop where
  input_valid : ∀ r < w, (input r).Valid
  input_nbytes : ∀ r < w, (input r).nbytes = chunk
  outs_list : ∀ r < w, TensorList w (outs r)
  outs_nbytes : ∀ r < w, ∀ t ∈ outs r, t.nbytes = chunk

section allgather
variable {chunk : Nat} {outs : Nat → List Tensor} {input : Nat → Tensor}

theorem allgather_one_raceFree {input : Tensor} (h : input.Valid) (outs : List Tensor) (r : Nat) :
    (allgather_one r w outs input : RankProg D Unit).RaceFree := by
  refine .bind (.check _ _) fun _ => .bind (check_mps_straight _ _).raceFree fun _ =>
    .bind (.forM fun _ _ => (check_mps_straight _ _).raceFree) fun _ =>
    .bind_of (stage_straight _).raceFree (stage_returns h.toOk) fun sb hsb =>
    .bind (vectors_straight _ _).raceFree fun _ => .bind ⟨?_, trivial⟩ fun _ =>
    .bind (unstage_straight _ _ _).raceFree fun _ => (unstage_all_straight _ _ _).raceFree
  exact list_threads_indep _ (fun _ _ => staged_ne_heap h hsb.2) _ _

/-- What rank `r` does after the exchange. -/
def allgather_post (chunk : Nat) (outs : List Tensor) (data : Addr) (r w : Nat) : RankProg D Unit := do
  unstage_from_recv (entry outs r) data chunk
  forM (peers r w) fun p => unstage_from_recv (entry outs p) (heap p) chunk

theorem allgather_post_computes {outs : List Tensor} (h : TensorList w outs)
    (hn : ∀ t ∈ outs, t.nbytes = chunk) {r : Nat} (hr : r < w) (data : Addr) (s : RankState D) :
    ∃ s', Computes (allgather_post chunk outs data r w) s s' () ∧ Calm s s' ∧
      ((∀ t ∈ outs, t.shared = true) →
        (∀ j < chunk, (entry outs r).byte s'.mem j = s.mem (data.1, data.2 + j)) ∧
        (∀ p < w, p ≠ r → ∀ j < chunk,
          (entry outs p).byte s'.mem j = s.mem ((heap p).1, (heap p).2 + j)) ∧
        Untouched outs s.mem s'.mem) := by
  have hown := unstage_computes (h.entry_valid hr).toOk data (hn _ (h.mem hr)).symm s
  obtain ⟨s', hrun, hcalm, hcopied⟩ := unstage_all (l := peers r w) (entry outs)
    (fun p hp => (h.entry_valid (mem_peers.mp hp).1).toOk)
    (fun p hp => (hn _ (h.mem (mem_peers.mp hp).1)).symm) (fun p hp => h.ne_heap (mem_peers.mp hp).1) (h.peers_apart r) (unstaged (entry outs r) data s)
  refine ⟨s', ?_, (unstaged_calm _ _ _).trans hcalm, fun hsh => ?_⟩
  · exact hown.bind hrun
  have hmem := fun p (hp : p < w) => hn _ (h.mem hp)
  obtain ⟨-, hbytes, hframe⟩ := hcopied fun p hp => hsh _ (h.mem (mem_peers.mp hp).1)
  rw [unstaged_mem (hsh _ (h.mem hr))] at hbytes hframe
  refine ⟨fun j hj => ?_, fun p hp hpr j hj => ?_, fun id j hj => ?_⟩
  · -- The other blocks do not overlap the rank's own tensor.
    have hj : j < (entry outs r).nbytes := by rwa [hmem r hr]
    refine (hframe _ fun p hp => ?_).trans (copy_at _ _ _ hj)
    obtain ⟨hp, hpr⟩ := mem_peers.mp hp
    exact h.entry_apart hr hp hpr.symm (Tensor.byte_mem_span hj)
  · rw [hbytes p (mem_peers.mpr ⟨hp, hpr⟩) j (by rwa [hmem p hp])]
    exact copy_of_ne (h.ne_heap hr p).symm
  · rw [hframe _ fun p hp => hj _ (h.mem (mem_peers.mp hp).1)]
    exact copy_frame (hj _ (h.mem hr))

theorem allgather_one_round (h : AllgatherOneOk w chunk outs input) {st : Nat → RankState D}
    (htag : SameTag w st) :
    Round w (· = st) (fun r => allgather_one r w (outs r) (input r)) (fun _ _ => chunk)
      fun st' => ∀ r < w, Calm (st r) (st' r) ∧
        ((∀ q < w, (input q).shared = true ∧ ∀ t ∈ outs q, t.shared = true) →
          ListSpec w outs (fun p _ => input p) (mems st) r (st' r).mem) := by
  refine .of_ranks
    (fun r x => x.src = (fun _ => span (stagedAt (input r) (st r)) chunk) ∧
      x.dst = (fun p => span (heap p) chunk) ∧
      x.post = allgather_post chunk (outs r) (stagedAt (input r) (st r)) r w ∧
      Calm (st r) x.store ∧ ((input r).shared = true → SameUser (st r).mem x.store.mem))
    (fun r s => Calm (st r) s ∧
      ((∀ q < w, (input q).shared = true ∧ ∀ t ∈ outs q, t.shared = true) →
        ListSpec w outs (fun p _ => input p) (mems st) r s.mem))
    (fun r hr => allgather_one_raceFree (h.input_valid r hr) _ r) htag ?_ ?_
  · intro r hr
    have hin := h.input_valid r hr
    have hne (a : Addr) : span a chunk ≠ [] := span_ne_nil a (h.input_nbytes r hr ▸ hin.nbytes_pos)
    refine ⟨⟨cleared (peers r w) (fun _ => chunk) (staged (input r) (st r)),
      fun _ => span (stagedAt (input r) (st r)) chunk, fun p => span (heap p) chunk,
      allgather_post chunk (outs r) (stagedAt (input r) (st r)) r w⟩,
      ⟨⟨?_, ?_, ?_, ?_⟩, ?_⟩, rfl, rfl, rfl, ?_, fun hsh => ?_⟩
    · rw [allgather_one, Proc.check_pos (h.outs_list r hr).length_eq, Proc.ret_bind,
        check_mps_eq hin.toOk, Proc.ret_bind,
        forM_check_mps_eq fun t ht => ((h.outs_list r hr).valid t ht).toOk, Proc.ret_bind]
      refine (stage_computes hin.toOk (st r) _).trans ?_
      simp only [h.input_nbytes r hr]
      rw [exchangeThreads_of_ne (fun _ _ _ => hne _) fun _ _ _ => hne _]
      exact (vectors_computes _ _ _ _).trans .refl
    · exact fun _ _ _ => length_span _ _
    · exact fun _ _ _ => length_span _ _
    · exact fun _ _ _ => nodup_span _ _
    · exact (staged_calm _ _).tag
    · exact (staged_calm _ _).trans (cleared_calm _ _ _)
    · rw [staged_shared hsh]
      exact fun id j => cleared_of_ne _ _ _ (by simp)
  · intro x hx st₂ hst₂ r hr
    obtain ⟨-, hdst, hpost, hcalm, huser⟩ := hx r hr
    obtain ⟨s, hrun, hcalm', hcontent⟩ := allgather_post_computes (h.outs_list r hr)
      (h.outs_nbytes r hr) hr (stagedAt (input r) (st r)) (st₂ r)
    refine ⟨s, hpost ▸ hrun, (hcalm.trans (.of_aux (hst₂.tag r) (hst₂.aux r))).trans hcalm',
      fun hsh => ?_⟩
    obtain ⟨hown, hpeers, hframe⟩ := hcontent (hsh r hr).2
    have huser' := (huser (hsh r hr).1).trans (exchanged_sameUser hst₂ hr hdst)
    refine ⟨fun p hp j hj => ?_, huser'.untouched hframe⟩
    rw [h.outs_nbytes r hr _ ((h.outs_list r hr).mem hp)] at hj
    by_cases hpr : p = r
    · subst hpr
      rw [hown j hj, stagedAt_shared (hsh p hr).1]
      exact huser'.byte (h.input_valid p hr).user j
    · obtain ⟨hsrc, -, -, -, huser_p⟩ := hx p hp
      have hsrc' : (x p).src r = span (input p).addr chunk := by
        rw [hsrc, stagedAt_shared (hsh p hp).1]
      rw [hpeers p hp hpr j hj, received hst₂ hr hdst hp hpr hsrc' hj]
      exact (huser_p (hsh p hp).1).byte (h.input_valid p hp).user j

end allgather

/-- The arguments of the ranks fit together: `n` rounds, round `i` with blocks
    of `chunk i` bytes. What an earlier round writes is not used later. -/
structure AllgatherOk (w n : Nat) (chunk : Nat → Nat) (outputs : Nat → List (List Tensor))
    (inputs : Nat → List Tensor) : Prop where
  inputs_length : ∀ r < w, (inputs r).length = n
  outputs_length : ∀ r < w, (outputs r).length = n
  one : ∀ i < n, AllgatherOneOk w (chunk i) (fun r => (outputs r).getD i [])
    fun r => entry (inputs r) i
  outputs_apart : ∀ r < w, ∀ i < n, ∀ i' < i, ∀ t ∈ (outputs r).getD i [],
    ∀ u ∈ (outputs r).getD i' [], u.Apart t
  inputs_apart : ∀ r < w, ∀ i < n, ∀ i' < i, ∀ u ∈ (outputs r).getD i' [],
    (entry (inputs r) i).Apart u

/-- Output list `i` of rank `r` holds the inputs `i` of all ranks. -/
structure AllgatherSpec (w n : Nat) (outputs : Nat → List (List Tensor)) (inputs : Nat → List Tensor)
    (m : Nat → Addr → UInt8) (r : Nat) (m' : Addr → UInt8) : Prop where
  bytes : ∀ i < n, ∀ p < w, ∀ j < (entry ((outputs r).getD i []) p).nbytes,
    (entry ((outputs r).getD i []) p).byte m' j = (entry (inputs p) i).byte (m p) j
  frame : Untouched ((List.range n).flatMap fun i => (outputs r).getD i []) (m r) m'

section allgather_rounds
variable {n : Nat} {chunk : Nat → Nat} {outputs : Nat → List (List Tensor)}
  {inputs : Nat → List Tensor}

theorem AllgatherSpec.succ (h : AllgatherOk w n chunk outputs inputs) {i : Nat} (hi : i < n)
    {m m' : Nat → Addr → UInt8} {m'' : Addr → UInt8}
    (hspec : ∀ q < w, AllgatherSpec w i outputs inputs m q (m' q)) {r : Nat} (hr : r < w)
    (hround : ListSpec w (fun r => (outputs r).getD i []) (fun p _ => entry (inputs p) i) m' r m'') :
    AllgatherSpec w (i + 1) outputs inputs m r m'' where
  bytes := by
    intro i' hi' p hp j hj
    have hone := h.one i hi
    rcases Nat.lt_succ_iff_lt_or_eq.mp hi' with hlt | rfl
    · -- The outputs of the earlier rounds are left alone.
      have hlist := (h.one i' (by omega)).outs_list r hr
      rw [hround.frame.byte (hlist.entry_valid hp).user (fun u hu => ?_) hj]
      · exact (hspec r hr).bytes i' hlt p hp j hj
      · exact h.outputs_apart r hr i hi i' hlt u hu _ (hlist.mem hp)
    · -- The input of this round has not been written to before.
      rw [hround.bytes p hp j hj]
      refine (hspec p hp).frame.byte (hone.input_valid p hp).user (fun u hu => ?_) ?_
      · obtain ⟨k, hk, hu⟩ := List.mem_flatMap.mp hu
        exact h.inputs_apart p hp i' hi k (List.mem_range.mp hk) u hu
      · rwa [hone.input_nbytes p hp, ← hone.outs_nbytes r hr _ ((hone.outs_list r hr).mem hp)]
  frame := by
    refine ((hspec r hr).frame.mono ?_).trans (hround.frame.mono ?_)
    · intro t ht
      obtain ⟨k, hk, ht⟩ := List.mem_flatMap.mp ht
      exact List.mem_flatMap.mpr ⟨k, List.mem_range.mpr (by have := List.mem_range.mp hk; omega), ht⟩
    · intro t ht
      exact List.mem_flatMap.mpr ⟨i, List.mem_range.mpr (by omega), ht⟩

theorem allgather_exchanges (h : AllgatherOk w n chunk outputs inputs) {st : Nat → RankState D}
    (htag : SameTag w st) :
    Exchanges w n (fun i _ _ => chunk i) (fun r => allgather_body r w (outputs r) (inputs r)) st
      fun st' => ∀ r < w, Calm (st r) (st' r) ∧
        ((∀ q < w, (∀ t ∈ inputs q, t.shared = true) ∧ ∀ ts ∈ outputs q, ∀ t ∈ ts, t.shared = true) →
          AllgatherSpec w n outputs inputs (mems st) r (st' r).mem) where
  rounds := by
    refine ⟨fun i st' => ∀ r < w, Calm (st r) (st' r) ∧
        ((∀ q < w, (∀ t ∈ inputs q, t.shared = true) ∧ ∀ ts ∈ outputs q, ∀ t ∈ ts, t.shared = true) →
          AllgatherSpec w i outputs inputs (mems st) r (st' r).mem),
      fun r i => allgather_one r w ((outputs r).getD i []) (entry (inputs r) i), fun r hr => ?_,
      fun r _ => ⟨.refl _, fun _ => ⟨fun i hi => absurd hi (by omega), fun _ _ _ => rfl⟩⟩,
      fun i hi => ?_, fun _ h => h⟩
    · have hlen := (h.inputs_length r hr).trans (h.outputs_length r hr).symm
      rw [allgather_body, Proc.check_pos hlen, Proc.ret_bind, h.inputs_length r hr]
    · refine .of_forall
        (fun r hr => allgather_one_raceFree ((h.one i hi).input_valid r hr) _ r) fun st' hst' => ?_
      have htag' : ∀ r < w, ∀ q < w, (st' r).tag = (st' q).tag := fun r hr q hq => by
        rw [(hst' r hr).1.tag, (hst' q hq).1.tag, htag r hr q hq]
      refine ⟨_, allgather_one_round (h.one i hi) htag', fun st'' hst'' r hr =>
        ⟨(hst' r hr).1.trans (hst'' r hr).1, fun hsh => ?_⟩⟩
      refine AllgatherSpec.succ h hi (fun q hq => (hst' q hq).2 hsh) hr ((hst'' r hr).2 fun q hq => ?_)
      refine ⟨(hsh q hq).1 _ (entry_mem (by rwa [h.inputs_length q hq])), fun t ht => ?_⟩
      refine (hsh q hq).2 _ ?_ t ht
      rw [List.getD_eq_getElem _ _ (by rwa [h.outputs_length q hq])]
      exact List.getElem_mem _

end allgather_rounds

/-! ## `alltoall` -/

/-- The arguments of the ranks fit together. -/
structure AlltoallOk (w : Nat) (outs ins : Nat → List Tensor) : Prop where
  outs_list : ∀ r < w, TensorList w (outs r)
  ins_length : ∀ r < w, (ins r).length = w
  ins_valid : ∀ r < w, ∀ t ∈ ins r, t.Valid
  nbytes_eq : ∀ r < w, ∀ p < w, (entry (outs p) r).nbytes = (entry (ins r) p).nbytes
  apart : ∀ r < w, ∀ t ∈ ins r, ∀ u ∈ outs r, t.Apart u

section alltoall
variable {outs ins : Nat → List Tensor}

theorem AlltoallOk.ins_entry (h : AlltoallOk w outs ins) {r p : Nat} (hr : r < w) (hp : p < w) :
    entry (ins r) p ∈ ins r :=
  entry_mem ((h.ins_length r hr).symm ▸ hp)

theorem alltoall_stage_straight (r : Nat) (outs ins : List Tensor) (p : Nat) :
    (alltoall_stage r outs ins p : RankProg D StagingBuffer).Straight := by
  refine .bind (check_mps_straight _ _) fun _ => .bind (check_mps_straight _ _) fun _ =>
    .bind (stage_straight _) fun _ => ?_
  split
  · trivial
  · exact .bind (.modify _) fun _ => trivial

theorem alltoall_stage_returns {outs ins : List Tensor} {p : Nat} (hin : (entry ins p).Valid)
    (hout : (entry outs p).Valid) (r : Nat) :
    (alltoall_stage r outs ins p : RankProg D StagingBuffer).Returns
      fun sb => ∀ i, sb.data.1 ≠ .host i := by
  rw [alltoall_stage, check_mps_eq hin.toOk, Proc.ret_bind, check_mps_eq hout.toOk, Proc.ret_bind]
  refine (stage_returns hin.toOk).bind fun sb hsb => ?_
  split
  · exact staged_ne_heap hin hsb.2
  · exact fun _ => staged_ne_heap hin hsb.2

theorem alltoall_stage_computes {outs ins : List Tensor} {p : Nat} (hin : (entry ins p).Valid)
    (hout : (entry outs p).Valid) (r : Nat) (s : RankState D) :
    ∃ s' sb, Computes (alltoall_stage r outs ins p) s s' sb ∧ Calm s s' ∧
      ((entry ins p).shared = true → SameUser s.mem s'.mem) ∧ IsStaged (entry ins p) sb := by
  have hstage := stage_computes hin.toOk s
  have huser : (entry ins p).shared = true → SameUser s.mem (staged (entry ins p) s).mem :=
    fun hsh => by rw [staged_shared hsh]; exact .refl _
  rw [alltoall_stage, check_mps_eq hin.toOk, Proc.ret_bind, check_mps_eq hout.toOk, Proc.ret_bind]
  by_cases hpr : p = r
  · simp only [hpr, if_true] at *
    exact ⟨_, _, hstage.bind (Computes.ret _ _), staged_calm _ _, huser, isStaged _ _⟩
  · simp only [hpr, if_false]
    refine ⟨_, _, hstage.bind ((vector_computes _ _ _).bind (Computes.ret _ _)),
      (staged_calm _ _).trans (.of_mem _ _), fun hsh => (huser hsh).trans ?_, isStaged _ _⟩
    exact fill_sameUser (by simp [heap]) _ _ _

theorem alltoall_raceFree (h : AlltoallOk w outs ins) {r : Nat} (hr : r < w) :
    (alltoall_body r w (outs r) (ins r) : RankProg D Unit).RaceFree := by
  refine .bind_of (.mapM fun p _ => (alltoall_stage_straight r (outs r) (ins r) p).raceFree)
    (.mapM (A := fun _ sb => ∀ i, sb.data.1 ≠ .host i) fun p hp => ?_) fun sbs hsbs =>
    .bind (unstage_straight _ _ _).raceFree fun _ => .bind ⟨?_, trivial⟩ fun _ => (unstage_all_straight _ _ _).raceFree
  · rw [List.mem_range] at hp
    exact alltoall_stage_returns (h.ins_valid r hr _ (h.ins_entry hr hp))
      ((h.outs_list r hr).entry_valid hp) r
  · exact list_threads_indep _ (fun p hp => getD_of_forall₂ _ hsbs hp) _ _

/-- Rank `r` in front of the exchange: its own block is in place. -/
structure AlltoallStaged (w : Nat) (outs ins : Nat → List Tensor) (st : Nat → RankState D) (r : Nat)
    (x : Staged Addr UInt8 (Local D Host)) : Prop where
  src : (∀ t ∈ ins r, t.shared = true) → ∀ p < w,
    x.src p = span (entry (ins r) p).addr (entry (ins r) p).nbytes
  dst : x.dst = fun p => span (heap p) (entry (outs r) p).nbytes
  post : x.post = forM (peers r w) fun p =>
    unstage_from_recv (entry (outs r) p) (heap p) (entry (outs r) p).nbytes
  calm : Calm (st r) x.store
  own : (∀ t ∈ ins r, t.shared = true) → (∀ t ∈ outs r, t.shared = true) →
    ∀ j < (entry (outs r) r).nbytes,
      (entry (outs r) r).byte x.store.mem j = (entry (ins r) r).byte (st r).mem j
  frame : (∀ t ∈ ins r, t.shared = true) → (∀ t ∈ outs r, t.shared = true) →
    Untouched [entry (outs r) r] (st r).mem x.store.mem

theorem alltoall_staged (h : AlltoallOk w outs ins) (st : Nat → RankState D) {r : Nat} (hr : r < w) :
    ∃ x, Staged.From w (fun r p => (entry (ins r) p).nbytes) r (st r)
      (alltoall_body r w (outs r) (ins r)) x ∧ AlltoallStaged w outs ins st r x := by
  have hin := fun p (hp : p < w) => h.ins_valid r hr _ (h.ins_entry hr hp)
  have hout := fun p (hp : p < w) => (h.outs_list r hr).entry_valid hp
  obtain ⟨s, sbs, hrun, ⟨hcalm, huser⟩, hsbs⟩ := Computes.mapM (l := List.range w) (s := st r)
    (g := alltoall_stage r (outs r) (ins r))
    (I := fun s => Calm (st r) s ∧ ((∀ t ∈ ins r, t.shared = true) → SameUser (st r).mem s.mem))
    (A := fun p sb => IsStaged (entry (ins r) p) sb)
    (fun p hp s ⟨hs, hu⟩ => by
      rw [List.mem_range] at hp
      obtain ⟨s', sb, hc, hcalm, huser, hsb⟩ :=
        alltoall_stage_computes (D := D) (hin p hp) (hout p hp) r s
      exact ⟨s', sb, hc, ⟨hs.trans hcalm, fun hsh =>
        (hu hsh).trans (huser (hsh _ (h.ins_entry hr hp)))⟩, hsb⟩)
    ⟨.refl _, fun _ => .refl _⟩
  have hsb := fun p (hp : p < w) => getD_of_forall₂ default hsbs hp
  have hlen : ∀ p < w, (sbs.getD p default).nbytes = (entry (ins r) p).nbytes :=
    fun p hp => (hsb p hp).1
  have hown : (sbs.getD r default).nbytes = (entry (outs r) r).nbytes :=
    (hlen r hr).trans (h.nbytes_eq r hr r hr).symm
  refine ⟨⟨unstaged (entry (outs r) r) (sbs.getD r default).data s,
    fun p => span (sbs.getD p default).data (sbs.getD p default).nbytes,
    fun p => span (heap p) (entry (outs r) p).nbytes,
    forM (peers r w) fun p => unstage_from_recv (entry (outs r) p) (heap p) (entry (outs r) p).nbytes⟩,
    ⟨⟨?_, ?_, ?_, ?_⟩, ?_⟩, ⟨?_, rfl, rfl, ?_, ?_, ?_⟩⟩
  · refine (hrun _).trans ((unstage_computes (hout r hr).toOk _ hown s _).trans ?_)
    rw [exchangeThreads_of_ne]
    · exact .refl
    · exact fun p hp _ => span_ne_nil _ (hlen p hp ▸ (hin p hp).nbytes_pos)
    · exact fun p hp _ => span_ne_nil _ (hout p hp).nbytes_pos
  · exact fun p hp _ => by rw [length_span, hlen p hp]
  · exact fun p hp _ => by rw [length_span, h.nbytes_eq p hp r hr]
  · exact fun p _ _ => nodup_span _ _
  · exact (hcalm.trans (unstaged_calm _ _ _)).tag
  · intro hsh p hp
    simp only [hlen p hp, (hsb p hp).2 (hsh _ (h.ins_entry hr hp))]
  · exact hcalm.trans (unstaged_calm _ _ _)
  · intro hsh hsh' j hj
    simp only [unstaged_mem (hsh' _ ((h.outs_list r hr).mem hr))]
    rw [copy_byte _ _ hj, (hsb r hr).2 (hsh _ (h.ins_entry hr hr))]
    exact (huser hsh).byte (hin r hr).user j
  · intro hsh hsh'
    simp only [unstaged_mem (hsh' _ ((h.outs_list r hr).mem hr))]
    exact (huser hsh).untouched (copy_untouched _ _ _)

theorem alltoall_round (h : AlltoallOk w outs ins) {st : Nat → RankState D}
    (htag : SameTag w st) :
    Round w (· = st) (fun r => alltoall_body r w (outs r) (ins r))
      (fun r p => (entry (ins r) p).nbytes) fun st' => ∀ r < w, Calm (st r) (st' r) ∧
        ((∀ q < w, (∀ t ∈ ins q, t.shared = true) ∧ ∀ t ∈ outs q, t.shared = true) →
          ListSpec w outs (fun p r => entry (ins p) r) (mems st) r (st' r).mem) := by
  refine .of_ranks _ (fun r s => Calm (st r) s ∧
      ((∀ q < w, (∀ t ∈ ins q, t.shared = true) ∧ ∀ t ∈ outs q, t.shared = true) →
        ListSpec w outs (fun p r => entry (ins p) r) (mems st) r s.mem))
    (fun r hr => alltoall_raceFree h hr) htag (fun r hr => alltoall_staged h st hr) ?_
  intro x hx st₂ hst₂ r hr
  have hxr := hx r hr
  have hlist := h.outs_list r hr
  obtain ⟨s, hrun, hcalm, hcopied⟩ := unstage_all (l := peers r w) (entry (outs r))
    (fun p hp => (hlist.entry_valid (mem_peers.mp hp).1).toOk) (fun _ _ => rfl)
    (fun p hp => hlist.ne_heap (mem_peers.mp hp).1) (hlist.peers_apart r) (st₂ r)
  refine ⟨s, hxr.post ▸ hrun, (hxr.calm.trans (.of_aux (hst₂.tag r) (hst₂.aux r))).trans hcalm,
    fun hsh => ?_⟩
  obtain ⟨-, hbytes, hframe⟩ := hcopied fun p hp => (hsh r hr).2 _ (hlist.mem (mem_peers.mp hp).1)
  have hsame := exchanged_sameUser hst₂ hr hxr.dst
  constructor
  · intro p hp j hj
    by_cases hpr : p = r
    · -- The rank's own block was copied before the exchange.
      subst hpr
      have hout : (entry (outs p) p).byte s.mem j = (entry (outs p) p).byte (st₂ p).mem j :=
        hframe _ fun q hq => hlist.entry_apart hp (mem_peers.mp hq).1 (mem_peers.mp hq).2.symm
          (Tensor.byte_mem_span hj)
      rw [hout, hsame.byte (hlist.entry_valid hp).user]
      exact hxr.own (hsh p hp).1 (hsh p hp).2 j hj
    · have hxp := hx p hp
      have hsrc : (x p).src r = span (entry (ins p) r).addr (entry (outs r) p).nbytes := by
        rw [hxp.src (hsh p hp).1 r hr, h.nbytes_eq p hp r hr]
      rw [hbytes p (mem_peers.mpr ⟨hp, hpr⟩) j hj, received hst₂ hr hxr.dst hp hpr hsrc hj]
      refine (hxp.frame (hsh p hp).1 (hsh p hp).2).byte (h.ins_valid p hp _ (h.ins_entry hp hr)).user
        ?_ (h.nbytes_eq p hp r hr ▸ hj)
      simpa using h.apart p hp _ (h.ins_entry hp hr) _ ((h.outs_list p hp).mem hp)
  · have hmono : Untouched (outs r) _ _ := (hxr.frame (hsh r hr).1 (hsh r hr).2).mono
      (by simpa using hlist.mem hr)
    refine hmono.trans fun id j hj => ?_
    rw [hframe _ fun p hp => hj _ (hlist.mem (mem_peers.mp hp).1)]
    exact hsame id j

end alltoall

end Mccl
