import Mccl.Backend.Lists

/-! # Reduce-Scatter

    The rounds of `_reduce_scatter_base` and `reduce_scatter`. After a round,
    the shares of the peers are in temporary tensors, and the kernels that
    reduce them are committed but not executed. So a round says what is pending
    (`ScatterRound`, `Pending` for several rounds), and only draining the queue
    gives the result (`Pending.drained`). -/

namespace Mccl

open ForkJoin Arrays

variable {D : Device UInt8} {w : Nat}

/-! ## The kernels of one round -/

/-- The kernels that reduce the temporaries from number `base` on. -/
def reduceCmds (D : Device UInt8) (f : Format) (k : BinaryOp) (op : RedOpType) (w r : Nat)
    (out : Tensor) (base : Nat) : List (Cmd D) :=
  (peers r w).map (fun p => .binary k f out.addr (.tmp (base + p), 0) out.numel) ++
    if op = .AVG then [.scale f out.addr (tensorFactor D (D.recip w) f) out.numel] else []

/-- The left fold of the shares for rank `r`: its own share first, then those
    of its peers in ascending order; averages are scaled. -/
def scattered (D : Device UInt8) (f : Format) (k : BinaryOp) (op : RedOpType) (w r : Nat)
    (share : Nat → D.F f) : D.F f :=
  let y := (peers r w).foldl (fun y p => D.apply k f y (share p)) (share r)
  if op = .AVG then D.apply .mul f y (tensorFactor D (D.recip w) f) else y

section kernels
variable {f : Format} {k : BinaryOp} {op : RedOpType} {out : Tensor}

/-- Only the shares of the ranks matter. -/
theorem scattered_congr {r : Nat} (hr : r < w) {share share' : Nat → D.F f}
    (h : ∀ p < w, share p = share' p) :
    scattered D f k op w r share = scattered D f k op w r share' := by
  have hfold : (peers r w).foldl (fun y p => D.apply k f y (share p)) (share r) =
      (peers r w).foldl (fun y p => D.apply k f y (share' p)) (share' r) := by
    rw [h r hr]
    exact List.foldl_ext _ _ _ fun y p hp => by rw [h p (mem_peers.mp hp).1]
  simp only [scattered, hfold]

theorem span_eq_of_format (hf : out.dtype.format = some f) :
    out.span = span out.addr (out.numel * (D.codec f).size) := by
  rw [Tensor.span, Tensor.nbytes, Tensor.element_size, D.codec_size, format_size hf]

theorem Cmd.exec_frame {c : Cmd D} (hf : out.dtype.format = some f)
    (hc : (∃ src, c = .binary k f out.addr src out.numel) ∨
      ∃ x, c = .scale f out.addr x out.numel) {m : Addr → UInt8} {a : Addr} (ha : a ∉ out.span) :
    c.exec m a = m a := by
  rw [span_eq_of_format (D := D) hf] at ha
  rcases hc with ⟨src, rfl⟩ | ⟨x, rfl⟩
  · rw [Cmd.exec]
    exact store_frame ha
  · rw [Cmd.exec]
    exact store_frame ha

theorem execAll_append (cs cs' : List (Cmd D)) (m : Addr → UInt8) :
    execAll (cs ++ cs') m = execAll cs' (execAll cs m) := List.foldl_append ..

theorem reduceCmds_frame (hf : out.dtype.format = some f) (r base : Nat) (m : Addr → UInt8)
    {a : Addr} (ha : a ∉ out.span) : execAll (reduceCmds D f k op w r out base) m a = m a := by
  refine execAll_frame (fun c hc m => ?_) m
  rcases List.mem_append.mp hc with hc | hc
  · obtain ⟨p, -, rfl⟩ := List.mem_map.mp hc
    exact Cmd.exec_frame hf (.inl ⟨_, rfl⟩) ha
  · by_cases hop : op = .AVG
    · simp only [hop, if_true, List.mem_singleton] at hc
      exact Cmd.exec_frame (k := k) hf (.inr ⟨_, hc⟩) ha
    · simp [hop] at hc

/-- The kernels of one round compute the left fold. -/
theorem elem_reduceCmds (huser : out.User) (r base : Nat) (m : Addr → UInt8) {e : Nat}
    (he : e < out.numel) :
    elem (D.codec f) (execAll (reduceCmds D f k op w r out base) m) out.addr e =
      scattered D f k op w r fun p => if p = r then elem (D.codec f) m out.addr e
        else elem (D.codec f) m (.tmp (base + p), 0) e := by
  have hne : ∀ i, (Buf.tmp i) ≠ out.addr.1 := by
    obtain ⟨id, hid⟩ := huser
    simp [Tensor.addr, hid]
  -- The temporaries keep their values while the output is reduced.
  have hfold : ∀ (l : List Nat) (m : Addr → UInt8), r ∉ l →
      elem (D.codec f) (execAll (l.map fun p =>
        (.binary k f out.addr (.tmp (base + p), 0) out.numel : Cmd D)) m) out.addr e =
      l.foldl (fun y p => D.apply k f y (if p = r then elem (D.codec f) m out.addr e
        else elem (D.codec f) m (.tmp (base + p), 0) e)) (elem (D.codec f) m out.addr e) := by
    intro l
    induction l with
    | nil => exact fun _ _ => rfl
    | cons p l ih =>
      intro m hr
      rw [List.mem_cons, not_or] at hr
      let m' := (Cmd.binary k f out.addr (.tmp (base + p), 0) out.numel : Cmd D).exec m
      have hout : elem (D.codec f) m' out.addr e = D.apply k f (elem (D.codec f) m out.addr e)
          (elem (D.codec f) m (.tmp (base + p), 0) e) := Cmd.elem_binary _ _ _ _ _ he
      have htmp : ∀ q, elem (D.codec f) m' (.tmp (base + q), 0) e =
          elem (D.codec f) m (.tmp (base + q), 0) e :=
        fun q => elem_congr fun _ _ => Cmd.exec_of_ne (hne _)
      refine (ih m' hr.2).trans ?_
      rw [List.foldl_cons, hout, if_neg (Ne.symm hr.1)]
      refine List.foldl_ext _ _ _ fun y q hq => ?_
      have hqr : q ≠ r := fun h => hr.2 (h ▸ hq)
      simp only [hqr, if_false, htmp]
  have hr : r ∉ peers r w := fun h => (mem_peers.mp h).2 rfl
  rw [reduceCmds, execAll_append, scattered]
  by_cases hop : op = .AVG
  · simp only [hop, if_true]
    refine (Cmd.elem_scale _ _ _ _ he).trans ?_
    rw [hfold _ _ hr]
  · simp only [hop, if_false]
    refine (hfold _ _ hr).trans ?_
    simp

/-! ## The batch -/

theorem empty_like_ok (h : out.Ok) (i : Nat) : (empty_like out i).Ok :=
  ⟨h.mps, rfl, h.admitted, h.numel_pos⟩

theorem empty_like_addr (out : Tensor) (i : Nat) : (empty_like out i).addr = (.tmp i, 0) := by
  simp [empty_like, Tensor.addr]

/-- What the peers in `l` sent has been copied to their temporaries. -/
structure TmpCopied (l : List Nat) (base n : Nat) (m m' : Addr → UInt8) : Prop where
  bytes : ∀ p ∈ l, ∀ j < n, m' (.tmp (base + p), j) = m ((heap p).1, (heap p).2 + j)
  frame : ∀ a : Addr, (∀ p ∈ l, a.1 ≠ .tmp (base + p)) → m' a = m a

/-- The state inside the batch `cs`. -/
structure InBatch (cs : List (Cmd D)) (s s' : RankState D) : Prop where
  tag : s'.tag = s.tag
  cache : s'.aux.metal.cache = s.aux.metal.cache
  works : s'.aux.host.works = s.aux.host.works
  batch : s'.aux.metal.batch_cmd = some cs

theorem InBatch.dispatched {s s' : RankState D} (h : InBatch cs s s') (c : Cmd D) :
    InBatch (cs ++ [c]) s (dispatched c s') := by
  have hb := h.batch
  refine ⟨h.tag, ?_, h.works, ?_⟩ <;> simp [Mccl.dispatched, setMetal, Metal.dispatch, hb, h.cache]

theorem dispatched_committed {s : RankState D}
    (h : s.aux.metal.batch_cmd = some cs) (c : Cmd D) :
    (dispatched c s).aux.metal.committed = s.aux.metal.committed := by
  simp [dispatched, setMetal, Metal.dispatch, h]

/-- One peer after the other: copy its share, encode its kernel. -/
theorem reduce_loop (hout : out.Valid) {l : List Nat} (hl : l.Nodup) (base : Nat)
    (cs : List (Cmd D)) {s : RankState D} (hred : out.Reducible s.aux.metal.cache op f k)
    (hbatch : s.aux.metal.batch_cmd = some cs) :
    ∃ s', Computes (forM l fun p => (do
        unstage_from_recv (empty_like out (base + p)) (heap p) out.nbytes
        metal_reduce_op out (empty_like out (base + p)) op : RankProg D PUnit)) s s' () ∧
      InBatch (cs ++ l.map fun p => .binary k f out.addr (.tmp (base + p), 0) out.numel) s s' ∧
      (out.shared = true → s'.aux.metal.committed = s.aux.metal.committed ∧
        TmpCopied l base out.nbytes s.mem s'.mem) := by
  induction l generalizing cs s with
  | nil =>
    exact ⟨s, Computes.ret _ _, ⟨rfl, rfl, rfl, by simpa using hbatch⟩,
      fun _ => ⟨rfl, by simp, fun _ _ => rfl⟩⟩
  | cons p l ih =>
    rw [List.nodup_cons] at hl
    let t := empty_like out (base + p)
    have ht : t.Ok := empty_like_ok hout.toOk _
    let c : Cmd D := .binary k f out.addr (.tmp (base + p), 0) out.numel
    let s₁ := unstaged t (heap p) s
    have hcalm : Calm s s₁ := unstaged_calm _ _ _
    have hred₁ : out.Reducible s₁.aux.metal.cache op f k := hcalm.cache.symm ▸ hred
    have hop := metal_reduce_op_computes (D := D) (s := s₁) hout.toOk ht rfl rfl hred₁
    rw [empty_like_addr] at hop
    have hin₁ : InBatch (cs ++ [c]) s (dispatched c s₁) :=
      InBatch.dispatched ⟨hcalm.tag, hcalm.cache, hcalm.works, hcalm.batch.trans hbatch⟩ c
    obtain ⟨s', hrun, hin, hshared⟩ := ih hl.2 _ (s := dispatched c s₁) (hin₁.cache.symm ▸ hred)
      hin₁.batch
    refine ⟨s', ?_, ?_, fun hsh => ?_⟩
    · rw [List.forM_cons]
      exact ((unstage_computes ht _ rfl s).bind hop).bind hrun
    · refine ⟨hin.tag.trans hin₁.tag, hin.cache.trans hin₁.cache, hin.works.trans hin₁.works, ?_⟩
      rw [hin.batch, List.map_cons, List.append_assoc]
      rfl
    · have hmem : (dispatched c s₁).mem = copy s.mem t.addr (heap p) t.nbytes :=
        unstaged_mem (t := t) hsh _ _
      have haux : s₁.aux = s.aux := unstaged_aux (t := t) hsh _ _
      obtain ⟨hcommitted, hbytes, hframe⟩ := hshared hsh
      rw [hmem, empty_like_addr] at hbytes hframe
      refine ⟨?_, fun q hq j hj => ?_, fun a ha => ?_⟩
      · rw [hcommitted, dispatched_committed (hcalm.batch.trans hbatch), haux]
      · rcases List.mem_cons.mp hq with rfl | hq
        · -- The temporaries of the other peers are other buffers.
          have hother : ∀ q' ∈ l, (Buf.tmp (base + q)) ≠ .tmp (base + q') := by
            intro q' hq' h
            obtain rfl : q = q' := by simpa using h
            exact hl.1 hq'
          refine (hframe (.tmp (base + q), j) hother).trans ?_
          have hcopy := copy_at s.mem (.tmp (base + q), 0) (heap q) hj
          rwa [Nat.zero_add] at hcopy
        · rw [hbytes q hq j hj]
          exact copy_of_ne (by simp [heap])
      · rw [hframe a fun q hq => ha q (by simp [hq])]
        exact copy_of_ne (ha p (by simp))

theorem scale_average_computes (hout : out.Valid) {s s' : RankState D}
    (hred : out.Reducible s.aux.metal.cache op f k) (hin : InBatch cs s s') :
    ∃ s'', Computes (scale_average w op out) s' s'' () ∧ s''.mem = s'.mem ∧
      s''.aux.metal.committed = s'.aux.metal.committed ∧
      InBatch (cs ++ if op = .AVG then
        [.scale f out.addr (tensorFactor D (D.recip w) f) out.numel] else []) s s'' := by
  unfold scale_average
  by_cases hop : op = .AVG
  · subst hop
    let c : Cmd D := .scale f out.addr (tensorFactor D (D.recip w) f) out.numel
    refine ⟨dispatched c s', ?_, rfl, dispatched_committed hin.batch _, hin.dispatched _⟩
    exact metal_scale_inplace_computes hout.toOk (hin.cache.symm ▸ hred) _
  · simp only [hop, if_false, List.append_nil]
    exact ⟨s', Computes.ret _ _, rfl, rfl, hin⟩

theorem reduce_peers_computes (hout : out.Valid) (r base : Nat) {s : RankState D}
    (hred : out.Reducible s.aux.metal.cache op f k) (hbatch : s.aux.metal.batch_cmd = none) :
    ∃ s', Computes (reduce_peers r w op out (fun p => empty_like out (base + p)) out.nbytes) s s' () ∧
      Kept s s' ∧ (out.shared = true →
        s'.aux.metal.committed = s.aux.metal.committed ++ [reduceCmds D f k op w r out base] ∧
        TmpCopied (peers r w) base out.nbytes s.mem s'.mem) := by
  have hbegin := metal_begin_batch_computes hred.supports.initialized hbatch
  obtain ⟨s₁, hloop, hin₁, hshared⟩ := reduce_loop hout (nodup_peers r w) base []
    (s := begun s) hred rfl
  obtain ⟨s₂, hscale, hmem₂, hcommitted₂, hin₂⟩ := scale_average_computes (w := w) hout
    (s := begun s) hred hin₁
  have hb := hin₂.batch
  refine ⟨ended s₂, hbegin.bind (hloop.bind (hscale.bind (metal_end_batch_computes s₂))), ?_,
    fun hsh => ?_⟩
  · refine ⟨?_, ?_, ?_, ?_⟩
    · simp only [ended, hb, setMetal]
      exact hin₂.tag
    · simp only [ended, hb, setMetal]
      exact hin₂.cache
    · simp only [ended, hb, setMetal, hbatch]
    · simp only [ended, hb, setMetal]
      exact hin₂.works
  · obtain ⟨hcommitted, hcopied⟩ := hshared hsh
    constructor
    · simp only [ended, hb, setMetal, hcommitted₂, hcommitted]
      rfl
    · simp only [ended, hb, setMetal, hmem₂]
      exact hcopied

theorem scale_average_straight (w : Nat) (op : RedOpType) (t : Tensor) :
    (scale_average w op t : RankProg D Unit).Straight := by
  unfold scale_average
  split
  · exact metal_scale_inplace_straight _ _
  · trivial

theorem reduce_peers_straight (r w : Nat) (op : RedOpType) (t : Tensor) (tmp : Nat → Tensor) (n : Nat) :
    (reduce_peers r w op t tmp n : RankProg D Unit).Straight :=
  .bind metal_begin_batch_straight fun _ => .bind (.forM fun _ _ => .bind (unstage_straight _ _ _) fun _ =>
    metal_reduce_op_straight _ _ _) fun _ => .bind (scale_average_straight _ _ _) fun _ => .modify _

end kernels

/-! ## One round

    `share p r` is where rank `p` has its share for rank `r`, and `out r` is
    the output of rank `r`. -/

section round
variable {f : Format} {k : BinaryOp} {op : RedOpType} {out : Nat → Tensor}
  {share : Nat → Nat → Addr} {chunk base : Nat} {shared : Prop}

/-- Rank `r` in front of the exchange: its output holds its own share. -/
structure ScatterStaged (w chunk base : Nat) (op : RedOpType) (out : Nat → Tensor)
    (share : Nat → Nat → Addr) (shared : Prop) (st : Nat → RankState D) (r : Nat)
    (x : Staged Addr UInt8 (Local D Host)) : Prop where
  src : shared → ∀ p < w, x.src p = span (share r p) chunk
  dst : x.dst = fun p => span (heap p) chunk
  post : x.post = reduce_peers r w op (out r) (fun p => empty_like (out r) (base + p)) chunk
  calm : Calm (st r) x.store
  aux : shared → x.store.aux = (st r).aux
  own : shared → ∀ j < chunk, (out r).byte x.store.mem j = (st r).mem (off (share r r) j)
  sends : shared → ∀ p < w, ∀ j < chunk,
    x.store.mem (off (share r p) j) = (st r).mem (off (share r p) j)
  frame : shared → Untouched [out r] (st r).mem x.store.mem
  tmp : shared → ∀ i j, x.store.mem (.tmp i, j) = (st r).mem (.tmp i, j)

/-- Rank `r` after seeding its output with its own share and clearing its
    receive buffers; `s` is the state after staging, and `src p` is where its
    share for `p` has been staged. -/
theorem scatter_staged {st : Nat → RankState D} {r : Nat} {s : RankState D} (src : Nat → Addr)
    (hr : r < w) (hcalm : Calm (st r) s) (hs : shared → s = st r)
    (hsrc : shared → ∀ p < w, src p = share r p) (hout : (out r).Valid)
    (hn : (out r).nbytes = chunk) (hsh : shared → (out r).shared = true)
    (hshare : ∀ p < w, ∀ i, (share r p).1 ≠ .host i)
    (hsends : ∀ m : Addr → UInt8, ∀ p < w, ∀ j < chunk,
      copy m (out r).addr (share r r) chunk (off (share r p) j) = m (off (share r p) j)) :
    ScatterStaged w chunk base op out share shared st r
      ⟨cleared (peers r w) (fun _ => chunk) (unstaged (out r) (src r) s),
        fun p => span (src p) chunk, fun p => span (heap p) chunk,
        reduce_peers r w op (out r) (fun p => empty_like (out r) (base + p)) chunk⟩ := by
  have hcleared : ∀ a : Addr, (∀ i, a.1 ≠ .host i) →
      (cleared (peers r w) (fun _ => chunk) (unstaged (out r) (src r) s)).mem a =
        (unstaged (out r) (src r) s).mem a :=
    fun a ha => cleared_of_ne _ _ _ ha
  -- With shared storage, only the output and the receive buffers have changed so far.
  have hmem : shared → (unstaged (out r) (src r) s).mem =
      copy (st r).mem (out r).addr (share r r) chunk := by
    intro h
    rw [unstaged_mem (hsh h), hs h, hsrc h r hr, hn]
  have huser : ∀ i, (out r).addr.1 ≠ .host i := fun i => hout.user.ne_heap i
  refine ⟨fun h p hp => congrArg (span · chunk) (hsrc h p hp), rfl, rfl,
    (hcalm.trans (unstaged_calm _ _ _)).trans (cleared_calm _ _ _), fun h => ?_, fun h j hj => ?_,
    fun h p hp j hj => ?_, fun h id j hj => ?_, fun h i j => ?_⟩
  · simp only [cleared]
    rw [unstaged_aux (hsh h), hs h]
  · refine (hcleared ((out r).addr.1, (out r).addr.2 + j) huser).trans ?_
    rw [hmem h]
    exact copy_at _ _ _ hj
  · refine (hcleared (off (share r p) j) (hshare p hp)).trans ?_
    rw [hmem h]
    exact hsends _ p hp j hj
  · refine (hcleared _ (by simp)).trans ?_
    rw [hmem h, ← hn]
    exact copy_untouched _ _ _ id j hj
  · refine (hcleared _ (by simp)).trans ?_
    rw [hmem h]
    refine copy_of_ne ?_
    obtain ⟨id, hid⟩ := hout.user
    simp [Tensor.addr, hid]

/-- What a round leaves behind: the shares are there, and the kernels are
    committed. -/
structure ScatterRound (D : Device UInt8) (f : Format) (k : BinaryOp) (op : RedOpType)
    (w chunk base : Nat) (out : Nat → Tensor) (share : Nat → Nat → Addr) (st : Nat → RankState D)
    (r : Nat) (s : RankState D) : Prop where
  committed : s.aux.metal.committed =
    (st r).aux.metal.committed ++ [reduceCmds D f k op w r (out r) base]
  own : ∀ j < chunk, (out r).byte s.mem j = (st r).mem (off (share r r) j)
  tmp : ∀ p < w, p ≠ r → ∀ j < chunk, s.mem (.tmp (base + p), j) = (st p).mem (off (share p r) j)
  frame : Untouched [out r] (st r).mem s.mem
  tmp_frame : ∀ i, (∀ p < w, i ≠ base + p) → ∀ j, s.mem (.tmp i, j) = (st r).mem (.tmp i, j)

theorem scatter_post (hout : ∀ r < w, (out r).Valid) (hn : ∀ r < w, (out r).nbytes = chunk)
    (hsh : shared → ∀ r < w, (out r).shared = true) {st : Nat → RankState D}
    (hbatch : ∀ r < w, (st r).aux.metal.batch_cmd = none)
    (hred : ∀ r < w, (out r).Reducible (st r).aux.metal.cache op f k)
    {x : Nat → Staged Addr UInt8 (Local D Host)}
    (hx : ∀ r < w, ScatterStaged w chunk base op out share shared st r (x r))
    {st₂ : Nat → RankState D} (hst₂ : Exchanged w x st₂) {r : Nat} (hr : r < w) :
    ∃ s, Computes (x r).post (st₂ r) s () ∧ Kept (st r) s ∧
      (shared → ScatterRound D f k op w chunk base out share st r s) := by
  have hxr := hx r hr
  have hcalm : Calm (st r) (st₂ r) := hxr.calm.trans (.of_aux (hst₂.tag r) (hst₂.aux r))
  obtain ⟨s, hrun, hkept, hcontent⟩ := reduce_peers_computes (w := w) (hout r hr) r base
    (s := st₂ r) (hcalm.cache.symm ▸ hred r hr) (hcalm.batch.trans (hbatch r hr))
  rw [hn r hr] at hrun hcontent
  refine ⟨s, hxr.post ▸ hrun, hcalm.kept.trans hkept, fun hs => ?_⟩
  obtain ⟨hcommitted, hbytes, hframe⟩ := hcontent (hsh hs r hr)
  -- The temporaries are not the user's memory.
  have hsame : SameUser (x r).store.mem s.mem := by
    intro id j
    rw [hframe _ (by simp)]
    exact exchanged_sameUser hst₂ hr hxr.dst id j
  refine ⟨?_, fun j hj => ?_, fun p hp hpr j hj => ?_, ?_, fun i hi j => ?_⟩
  · rw [hcommitted, hst₂.aux r, hxr.aux hs]
  · rw [hsame.byte (hout r hr).user]
    exact hxr.own hs j hj
  · rw [hbytes p (mem_peers.mpr ⟨hp, hpr⟩) j hj,
      hst₂.moved r hr p hp hpr j (off (share p r) j) ((heap p).1, (heap p).2 + j)]
    · exact (hx p hp).sends hs r hr j hj
    · rw [(hx p hp).src hs r hr]
      exact getElem?_span _ hj
    · rw [hxr.dst]
      exact getElem?_span _ hj
  · intro id j hj
    rw [hsame id j]
    exact hxr.frame hs id j hj
  · rw [hframe _ fun p hp h => hi p (mem_peers.mp hp).1 (by simpa using h),
      hst₂.frame r hr _ fun q _ _ hmem => by simp [hxr.dst, mem_span, heap] at hmem]
    exact hxr.tmp hs i j

end round

/-! ## Several rounds

    `out i r` is the output of rank `r` in round `i`, and `share i p r` is where
    rank `p` has its share for it. The temporaries of round `i` are numbered
    from `i * w` on. -/

/-- The rounds do not get in each other's way. -/
structure ScatterOk (w n : Nat) (chunk : Nat → Nat) (out : Nat → Nat → Tensor)
    (share : Nat → Nat → Nat → Addr) : Prop where
  out_valid : ∀ i < n, ∀ r < w, (out i r).Valid
  out_nbytes : ∀ i < n, ∀ r < w, (out i r).nbytes = chunk i
  outs_apart : ∀ r < w, ∀ i < n, ∀ i' < i, (out i' r).Apart (out i r)
  share_user : ∀ i < n, ∀ r < w, ∀ p < w, ∃ id, (share i r p).1 = .mtl id
  share_apart : ∀ r < w, ∀ i < n, ∀ i' < i, ∀ p < w, ∀ j < chunk i,
    off (share i r p) j ∉ (out i' r).span

/-- Every output of rank `r` is the fold of the shares for it. -/
structure ScatterSpec (D : Device UInt8) (f : Nat → Format) (k : BinaryOp) (op : RedOpType)
    (w n : Nat) (out : Nat → Nat → Tensor) (share : Nat → Nat → Nat → Addr)
    (m : Nat → Addr → UInt8) (r : Nat) (m' : Addr → UInt8) : Prop where
  elems : ∀ i < n, ∀ e < (out i r).numel, elem (D.codec (f i)) m' (out i r).addr e =
    scattered D (f i) k op w r fun p => elem (D.codec (f i)) (m p) (share i p r) e
  frame : Untouched ((List.range n).map fun i => out i r) (m r) m'

/-- What `n` rounds leave behind. -/
structure Pending (D : Device UInt8) (f : Nat → Format) (k : BinaryOp) (op : RedOpType)
    (w n : Nat) (chunk : Nat → Nat) (out : Nat → Nat → Tensor) (share : Nat → Nat → Nat → Addr)
    (st : Nat → RankState D) (r : Nat) (s : RankState D) : Prop where
  committed : s.aux.metal.committed = (st r).aux.metal.committed ++
    (List.range n).map fun i => reduceCmds D (f i) k op w r (out i r) (i * w)
  own : ∀ i < n, ∀ j < chunk i, (out i r).byte s.mem j = (st r).mem (off (share i r r) j)
  tmp : ∀ i < n, ∀ p < w, p ≠ r → ∀ j < chunk i,
    s.mem (.tmp (i * w + p), j) = (st p).mem (off (share i p r) j)
  frame : Untouched ((List.range n).map fun i => out i r) (st r).mem s.mem

section rounds
variable {f : Nat → Format} {k : BinaryOp} {op : RedOpType} {n : Nat} {chunk : Nat → Nat}
  {out : Nat → Nat → Tensor} {share : Nat → Nat → Nat → Addr} {st : Nat → RankState D}

theorem Pending.zero (st : Nat → RankState D) (r : Nat) :
    Pending D f k op w 0 chunk out share st r (st r) :=
  ⟨by simp, nofun, nofun, fun _ _ _ => rfl⟩

/-- A share is still what it was, since the earlier rounds wrote elsewhere. -/
theorem Pending.share_eq (h : ScatterOk w n chunk out share) {i : Nat} (hi : i < n) {q : Nat}
    (hq : q < w) {s : RankState D} (hs : Pending D f k op w i chunk out share st q s) {p : Nat}
    (hp : p < w) {j : Nat} (hj : j < chunk i) :
    s.mem (off (share i q p) j) = (st q).mem (off (share i q p) j) := by
  have hapart := fun i' (hi' : i' < i) => h.share_apart q hq i hi i' hi' p hp j hj
  obtain ⟨id, hid⟩ := h.share_user i hi q hq p hp
  simp only [off, hid] at hapart ⊢
  refine hs.frame id _ fun t ht => ?_
  obtain ⟨i', hi', rfl⟩ := List.mem_map.mp ht
  exact hapart i' (List.mem_range.mp hi')

theorem Pending.succ (h : ScatterOk w n chunk out share) {i : Nat} (hi : i < n)
    {st' : Nat → RankState D} (hst' : ∀ q < w, Pending D f k op w i chunk out share st q (st' q))
    {r : Nat} (hr : r < w) {s : RankState D}
    (hs : ScatterRound D (f i) k op w (chunk i) (i * w) (out i) (share i) st' r s) :
    Pending D f k op w (i + 1) chunk out share st r s where
  committed := by
    rw [hs.committed, (hst' r hr).committed, List.append_assoc, List.range_succ, List.map_append]
    rfl
  own := by
    intro i' hi' j hj
    rcases Nat.lt_succ_iff_lt_or_eq.mp hi' with hlt | rfl
    · rw [hs.frame.byte (h.out_valid i' (by omega) r hr).user (fun u hu => ?_)
        (by rwa [h.out_nbytes i' (by omega) r hr])]
      · exact (hst' r hr).own i' hlt j hj
      · rw [List.mem_singleton.mp hu]
        exact h.outs_apart r hr i hi i' hlt
    · rw [hs.own j hj]
      exact (hst' r hr).share_eq h hi hr hr hj
  tmp := by
    intro i' hi' p hp hpr j hj
    rcases Nat.lt_succ_iff_lt_or_eq.mp hi' with hlt | rfl
    · -- The temporaries of the rounds have different numbers.
      rw [hs.tmp_frame _ fun q hq heq => ?_]
      · exact (hst' r hr).tmp i' hlt p hp hpr j hj
      · have := Nat.mul_le_mul_right w (Nat.succ_le_of_lt hlt)
        rw [Nat.succ_mul] at this
        omega
    · rw [hs.tmp p hp hpr j hj]
      exact (hst' p hp).share_eq h hi hp hr hj
  frame := (hst' r hr).frame.succ hs.frame

theorem rounds_frame {out : Nat → Tensor} (hf : ∀ i < n, (out i).dtype.format = some (f i)) (r : Nat)
    (m : Addr → UInt8) {a : Addr} (ha : ∀ i < n, a ∉ (out i).span) :
    execAll ((List.range n).map fun i => reduceCmds D (f i) k op w r (out i) (i * w)).flatten m a =
      m a := by
  induction n with
  | zero => rfl
  | succ n ih =>
    rw [List.range_succ, List.map_append, List.flatten_append, execAll_append]
    simp only [List.map_cons, List.map_nil, List.flatten_cons, List.flatten_nil, List.append_nil]
    rw [reduceCmds_frame (hf n (by omega)) _ _ _ (ha n (by omega))]
    exact ih (fun i hi => hf i (by omega)) fun i hi => ha i (by omega)

/-- The kernels of all rounds, in order: the outputs do not overlap, so every
    round is reduced as if it were alone. -/
theorem elem_rounds {out : Nat → Tensor} (hf : ∀ i < n, (out i).dtype.format = some (f i))
    (huser : ∀ i < n, (out i).User) (hapart : ∀ i < n, ∀ i' < i, (out i').Apart (out i)) (r : Nat)
    (m : Addr → UInt8) {i : Nat} (hi : i < n) {e : Nat} (he : e < (out i).numel) :
    elem (D.codec (f i)) (execAll ((List.range n).map fun i =>
        reduceCmds D (f i) k op w r (out i) (i * w)).flatten m) (out i).addr e =
      scattered D (f i) k op w r fun p => if p = r then elem (D.codec (f i)) m (out i).addr e
        else elem (D.codec (f i)) m (.tmp (i * w + p), 0) e := by
  have hspan := fun (i : Nat) (hi : i < n) => span_eq_of_format (D := D) (hf i hi)
  induction n with
  | zero => omega
  | succ n ih =>
    rw [List.range_succ, List.map_append, List.flatten_append, execAll_append]
    simp only [List.map_cons, List.map_nil, List.flatten_cons, List.flatten_nil, List.append_nil]
    rcases Nat.lt_succ_iff_lt_or_eq.mp hi with hlt | rfl
    · rw [← ih (fun i hi => hf i (by omega)) (fun i hi => huser i (by omega))
        (fun i hi => hapart i (by omega)) hlt fun i hi => hspan i (by omega)]
      refine elem_of_bytes (n := (out i).numel) (fun j hj => ?_) he
      refine reduceCmds_frame (hf n (by omega)) _ _ _ fun hmem => ?_
      refine hapart n (by omega) i hlt ?_ hmem
      rw [hspan i hi]
      exact mem_span.mpr ⟨rfl, Nat.le_add_right _ _, Nat.add_lt_add_left hj _⟩
    · rw [elem_reduceCmds (huser i hi) _ _ _ he]
      congr 1
      funext p
      split
      · refine elem_of_bytes (n := (out i).numel) (fun j hj => ?_) he
        refine rounds_frame (fun i hi => hf i (by omega)) r m fun i' hi' hmem => ?_
        refine hapart i hi i' hi' hmem ?_
        rw [hspan i hi]
        exact mem_span.mpr ⟨rfl, Nat.le_add_right _ _, Nat.add_lt_add_left hj _⟩
      · refine elem_congr fun j _ => ?_
        refine rounds_frame (fun i hi => hf i (by omega)) r m fun i' hi' hmem => ?_
        obtain ⟨id, hid⟩ := huser i' (by omega)
        simp [Tensor.span, mem_span, Tensor.addr, hid] at hmem

/-- **Draining the queue** executes what is pending. -/
theorem Pending.drained (h : ScatterOk w n chunk out share) {r : Nat} (hr : r < w)
    (hf : ∀ i < n, (out i r).dtype.format = some (f i)) {s : RankState D}
    (hs : Pending D f k op w n chunk out share st r s) (hidle : (st r).aux.metal.committed = []) :
    ScatterSpec D f k op w n out share (mems st) r (drain s).mem := by
  have hcs : s.aux.metal.committed =
      (List.range n).map fun i => reduceCmds D (f i) k op w r (out i r) (i * w) := by
    rw [hs.committed, hidle, List.nil_append]
  have hmem : (drain s).mem = execAll ((List.range n).map fun i =>
      reduceCmds D (f i) k op w r (out i r) (i * w)).flatten s.mem := by
    simp only [drain, hcs]
  rw [hmem]
  constructor
  · intro i hi e he
    rw [elem_rounds hf (fun i hi => (h.out_valid i hi r hr).user) (h.outs_apart r hr) r s.mem hi he]
    have hchunk : chunk i = (out i r).numel * (D.codec (f i)).size := by
      rw [← h.out_nbytes i hi r hr, Tensor.nbytes, Tensor.element_size, D.codec_size,
        format_size (hf i hi)]
    -- Where the kernels find the shares.
    have hown : elem (D.codec (f i)) s.mem (out i r).addr e =
        elem (D.codec (f i)) (st r).mem (share i r r) e :=
      elem_of_bytes (fun j hj => hs.own i hi j (hchunk ▸ hj)) he
    have htmp : ∀ p < w, p ≠ r → elem (D.codec (f i)) s.mem (.tmp (i * w + p), 0) e =
        elem (D.codec (f i)) (st p).mem (share i p r) e := fun p hp hpr =>
      elem_of_bytes (fun j hj => by
        rw [Nat.zero_add]
        exact hs.tmp i hi p hp hpr j (hchunk ▸ hj)) he
    refine scattered_congr hr fun p hp => ?_
    by_cases hpr : p = r
    · subst hpr
      simpa [mems] using hown
    · simpa [hpr, mems] using htmp p hp hpr
  · refine hs.frame.trans fun id j hj => ?_
    exact rounds_frame hf r s.mem fun i hi => hj _ (List.mem_map.mpr ⟨i, List.mem_range.mpr hi, rfl⟩)

end rounds

/-! ## `_reduce_scatter_base` -/

/-- The arguments of the ranks fit together: shares of `chunk` bytes. The
    output may be the rank's own share of the input. -/
structure ReduceScatterBaseOk (w chunk : Nat) (output input : Nat → Tensor) : Prop where
  input_valid : ∀ r < w, (input r).Valid
  output_valid : ∀ r < w, (output r).Valid
  input_nbytes : ∀ r < w, (input r).nbytes = chunk * w
  output_nbytes : ∀ r < w, (output r).nbytes = chunk
  apart : ∀ r < w, (input r).Apart (output r) ∨ (output r).addr = off (input r).addr (r * chunk)

section base
variable {chunk : Nat} {op : RedOpType} {f : Format} {k : BinaryOp} {output input : Nat → Tensor}

/-- Where rank `r` has its share for rank `p`. -/
def baseShare (chunk : Nat) (input : Nat → Tensor) (r p : Nat) : Addr :=
  off (input r).addr (p * chunk)

theorem _reduce_scatter_base_raceFree {input : Tensor} (h : input.Valid) (output : Tensor) (r : Nat) :
    (_reduce_scatter_base_body r w op output input : RankProg D Unit).RaceFree := by
  refine .bind (check_mps_straight _ _).raceFree fun _ => .bind (check_mps_straight _ _).raceFree fun _ =>
    .bind_of (stage_straight _).raceFree (stage_returns h.toOk) fun sb hsb => .bind (.check _ _) fun _ =>
    .bind (unstage_straight _ _ _).raceFree fun _ => .bind (vectors_straight _ _).raceFree fun _ =>
    .bind ⟨?_, trivial⟩ fun _ => (reduce_peers_straight _ _ _ _ _ _).raceFree
  exact list_threads_indep (fun p => off sb.data (p * output.nbytes))
    (fun _ _ => staged_ne_heap h hsb.2) _ _

theorem ReduceScatterBaseOk.seed_input (h : ReduceScatterBaseOk w chunk output input) {r : Nat}
    (hr : r < w) (m : Addr → UInt8) {p j : Nat} (hp : p < w) (hj : j < chunk) :
    copy m (output r).addr (baseShare chunk input r r) chunk (off (baseShare chunk input r p) j) =
      m (off (baseShare chunk input r p) j) := by
  rcases h.apart r hr with hapart | halias
  · refine copy_frame fun hmem => hapart (a := off (baseShare chunk input r p) j) ?_ ?_
    · refine mem_span.mpr ⟨rfl, ?_, ?_⟩
      · simp only [off, baseShare]
        omega
      · have hle := Nat.mul_le_mul_right chunk (Nat.succ_le_of_lt hp)
        rw [Nat.succ_mul, Nat.mul_comm w] at hle
        simp only [off, baseShare, h.input_nbytes r hr]
        omega
    · rwa [Tensor.span, h.output_nbytes r hr]
  · rw [halias]
    exact congrFun (copy_self m _ _) _

theorem _reduce_scatter_base_staged (op : RedOpType) (h : ReduceScatterBaseOk w chunk output input)
    (st : Nat → RankState D) {r : Nat} (hr : r < w) :
    ∃ x : Staged Addr UInt8 (Local D Host),
      x.From w (fun _ _ => chunk) r (st r) (_reduce_scatter_base_body r w op (output r) (input r)) ∧
      ScatterStaged w chunk 0 op output (baseShare chunk input)
        (AllShared w output input) st r x := by
  have hin := h.input_valid r hr
  have hout := h.output_valid r hr
  have hne (a : Addr) : span a chunk ≠ [] := span_ne_nil a (h.output_nbytes r hr ▸ hout.nbytes_pos)
  refine ⟨_, ⟨⟨?_, ?_, ?_, ?_⟩, ?_⟩,
    scatter_staged (s := staged (input r) (st r))
      (fun p => off (stagedAt (input r) (st r)) (p * chunk)) hr (staged_calm _ _)
      (fun hsh => staged_shared (hsh r hr).1 _)
      (fun hsh p _ => by rw [stagedAt_shared (hsh r hr).1]; rfl) hout (h.output_nbytes r hr)
      (fun hsh => (hsh r hr).2) (fun _ _ i => hin.user.ne_heap i)
      fun m p hp j hj => h.seed_input hr m hp hj⟩
  · rw [_reduce_scatter_base_body, check_mps_eq hin.toOk, Proc.ret_bind, check_mps_eq hout.toOk,
      Proc.ret_bind]
    refine (stage_computes hin.toOk (st r) _).trans ?_
    simp only [h.input_nbytes r hr, h.output_nbytes r hr]
    rw [Proc.check_pos trivial, Proc.ret_bind,
      exchangeThreads_of_ne (fun _ _ _ => hne _) fun _ _ _ => hne _]
    refine (unstage_computes hout.toOk _ (h.output_nbytes r hr).symm _ _).trans
      ((vectors_computes _ _ _ _).trans ?_)
    simp only [Nat.zero_add]
    exact .refl
  · exact fun _ _ _ => length_span _ _
  · exact fun _ _ _ => length_span _ _
  · exact fun _ _ _ => nodup_span _ _
  · exact ((staged_calm _ _).trans (unstaged_calm _ _ _)).tag

theorem _reduce_scatter_base_round (h : ReduceScatterBaseOk w chunk output input)
    {st : Nat → RankState D} (htag : SameTag w st)
    (hbatch : ∀ r < w, (st r).aux.metal.batch_cmd = none)
    (hred : ∀ r < w, (output r).Reducible (st r).aux.metal.cache op f k) :
    Round w (· = st) (fun r => _reduce_scatter_base_body r w op (output r) (input r))
      (fun _ _ => chunk) fun st' => ∀ r < w, Kept (st r) (st' r) ∧ (AllShared w output input →
          ScatterRound D f k op w chunk 0 output (baseShare chunk input) st r (st' r)) := by
  refine .of_ranks _ (fun r s => Kept (st r) s ∧ (AllShared w output input →
        ScatterRound D f k op w chunk 0 output (baseShare chunk input) st r s))
    (fun r hr => _reduce_scatter_base_raceFree (h.input_valid r hr) _ r) htag
    (fun r hr => _reduce_scatter_base_staged _ h st hr) fun x hx st₂ hst₂ r hr => ?_
  exact scatter_post h.output_valid h.output_nbytes (fun hsh r hr => (hsh r hr).2) hbatch hred hx
    hst₂ hr

theorem ReduceScatterBaseOk.scatterOk (h : ReduceScatterBaseOk w chunk output input) :
    ScatterOk w 1 (fun _ => chunk) (fun _ => output) fun _ => baseShare chunk input where
  out_valid := fun _ _ => h.output_valid
  out_nbytes := fun _ _ => h.output_nbytes
  outs_apart := fun _ _ i hi i' hi' => by omega
  share_user := fun _ _ r hr _ _ => (h.input_valid r hr).user
  share_apart := fun _ _ i hi i' hi' => by omega

theorem _reduce_scatter_base_exchanges (h : ReduceScatterBaseOk w chunk output input)
    {st : Nat → RankState D} (htag : SameTag w st)
    (hbatch : ∀ r < w, (st r).aux.metal.batch_cmd = none)
    (hred : ∀ r < w, (output r).Reducible (st r).aux.metal.cache op f k) :
    Exchanges w 1 (fun _ _ _ => chunk)
      (fun r => _reduce_scatter_base_body r w op (output r) (input r)) st
      fun st' => ∀ r < w, Kept (st r) (st' r) ∧ (AllShared w output input →
          Pending D (fun _ => f) k op w 1 (fun _ => chunk) (fun _ => output)
            (fun _ => baseShare chunk input) st r (st' r)) := by
  refine (Exchanges.single (_reduce_scatter_base_round h htag hbatch hred)).conseq
    fun st' hst' r hr => ⟨(hst' r hr).1, fun hsh => ?_⟩
  refine Pending.succ h.scatterOk Nat.zero_lt_one (fun q _ => .zero st q) hr ?_
  rw [Nat.zero_mul]
  exact (hst' r hr).2 hsh

end base

/-! ## `reduce_scatter` -/

/-- The arguments of the ranks for one round fit together. -/
structure ReduceScatterOneOk (w chunk : Nat) (out : Nat → Tensor) (ins : Nat → List Tensor) : Prop where
  out_valid : ∀ r < w, (out r).Valid
  out_nbytes : ∀ r < w, (out r).nbytes = chunk
  ins_length : ∀ r < w, (ins r).length = w
  ins_valid : ∀ r < w, ∀ t ∈ ins r, t.Valid
  ins_nbytes : ∀ r < w, ∀ t ∈ ins r, t.nbytes = chunk
  apart : ∀ r < w, ∀ t ∈ ins r, t.Apart (out r)

section list
variable {chunk : Nat} {op : RedOpType} {f : Format} {k : BinaryOp} {out : Nat → Tensor}
  {ins : Nat → List Tensor}

theorem ReduceScatterOneOk.ins_entry (h : ReduceScatterOneOk w chunk out ins) {r p : Nat}
    (hr : r < w) (hp : p < w) : entry (ins r) p ∈ ins r :=
  entry_mem ((h.ins_length r hr).symm ▸ hp)

/-- Where rank `r` has its share for rank `p`. -/
def listShare (ins : Nat → List Tensor) (r p : Nat) : Addr := (entry (ins r) p).addr

theorem reduce_scatter_one_raceFree (h : ReduceScatterOneOk w chunk out ins) {r : Nat} (hr : r < w)
    (i : Nat) : (reduce_scatter_one r w op i (out r) (ins r) : RankProg D Unit).RaceFree := by
  refine .bind (.check _ _) fun _ => .bind (check_mps_straight _ _).raceFree fun _ =>
    .bind_of (.mapM fun p _ => .bind (check_mps_straight _ _).raceFree fun _ => (stage_straight _).raceFree)
      (.mapM (A := fun _ sb => ∀ i, sb.data.1 ≠ .host i) fun p hp => ?_) fun sbs hsbs =>
    .bind (.check _ _) fun _ => .bind (unstage_straight _ _ _).raceFree fun _ =>
    .bind (vectors_straight _ _).raceFree fun _ => .bind ⟨?_, trivial⟩ fun _ =>
    (reduce_peers_straight _ _ _ _ _ _).raceFree
  · have hin := h.ins_valid r hr _ (h.ins_entry hr (List.mem_range.mp hp))
    rw [reduce_scatter_stage, check_mps_eq hin.toOk, Proc.ret_bind, ← Proc.bind_ret
      (stage_for_send_nosync _)]
    exact (stage_returns hin.toOk).bind fun sb hsb => staged_ne_heap hin hsb.2
  · exact list_threads_indep _ (fun p hp => getD_of_forall₂ _ hsbs hp) _ _

theorem reduce_scatter_one_staged (op : RedOpType) (h : ReduceScatterOneOk w chunk out ins) (i : Nat)
    (st : Nat → RankState D) {r : Nat} (hr : r < w) :
    ∃ x : Staged Addr UInt8 (Local D Host),
      x.From w (fun _ _ => chunk) r (st r) (reduce_scatter_one r w op i (out r) (ins r)) ∧
      ScatterStaged w chunk (i * w) op out (listShare ins)
        (∀ q < w, (∀ t ∈ ins q, t.shared = true) ∧ (out q).shared = true) st r x := by
  have hin := fun p (hp : p < w) => h.ins_valid r hr _ (h.ins_entry hr hp)
  have hout := h.out_valid r hr
  have hne (a : Addr) : span a chunk ≠ [] := span_ne_nil a (h.out_nbytes r hr ▸ hout.nbytes_pos)
  obtain ⟨s, sbs, hrun, ⟨hcalm, hs⟩, hsbs⟩ := Computes.mapM (l := List.range w) (s := st r)
    (g := (reduce_scatter_stage (ins r) : Nat → RankProg D StagingBuffer))
    (I := fun s => Calm (st r) s ∧ ((∀ t ∈ ins r, t.shared = true) → s = st r))
    (A := fun p sb => IsStaged (entry (ins r) p) sb)
    (fun p hp s ⟨hc, hs⟩ => by
      have hp := List.mem_range.mp hp
      refine ⟨staged (entry (ins r) p) s, _, ?_, ⟨hc.trans (staged_calm _ _), fun hsh => ?_⟩,
        isStaged _ s⟩
      · rw [reduce_scatter_stage, check_mps_eq (hin p hp).toOk]
        exact stage_computes (hin p hp).toOk s
      · rw [staged_shared (hsh _ (h.ins_entry hr hp)), hs hsh])
    ⟨.refl _, fun _ => rfl⟩
  have hsb := fun p (hp : p < w) => getD_of_forall₂ default hsbs hp
  have hchunk : (sbs.getD 0 default).nbytes = chunk :=
    (hsb 0 (by omega)).1.trans (h.ins_nbytes r hr _ (h.ins_entry hr (by omega)))
  refine ⟨_, ⟨⟨?_, ?_, ?_, ?_⟩, ?_⟩,
    scatter_staged (s := s) (fun p => (sbs.getD p default).data) hr hcalm
      (fun hsh => hs (hsh r hr).1)
      (fun hsh p hp => (hsb p hp).2 ((hsh r hr).1 _ (h.ins_entry hr hp))) hout
      (h.out_nbytes r hr) (fun hsh => (hsh r hr).2) ?_ ?_⟩
  · rw [reduce_scatter_one, Proc.check_pos (h.ins_length r hr), Proc.ret_bind,
      check_mps_eq hout.toOk, Proc.ret_bind]
    refine (hrun _).trans ?_
    simp only [hchunk]
    rw [Proc.check_pos (h.out_nbytes r hr), Proc.ret_bind,
      exchangeThreads_of_ne (fun _ _ _ => hne _) fun _ _ _ => hne _]
    exact (unstage_computes hout.toOk _ (h.out_nbytes r hr).symm _ _).trans
      ((vectors_computes _ _ _ _).trans .refl)
  · exact fun _ _ _ => length_span _ _
  · exact fun _ _ _ => length_span _ _
  · exact fun _ _ _ => nodup_span _ _
  · exact (hcalm.trans (unstaged_calm _ _ _)).tag
  · exact fun p hp i => (hin p hp).user.ne_heap i
  · intro m p hp j hj
    have hn := h.ins_nbytes r hr _ (h.ins_entry hr hp)
    rw [← h.out_nbytes r hr] at *
    exact copy_frame fun hmem => h.apart r hr _ (h.ins_entry hr hp)
      (Tensor.byte_mem_span (hn.symm ▸ hj)) hmem

theorem reduce_scatter_one_round (op : RedOpType) (h : ReduceScatterOneOk w chunk out ins) (i : Nat)
    (st : Nat → RankState D) (htag : SameTag w st)
    (hbatch : ∀ r < w, (st r).aux.metal.batch_cmd = none)
    (hred : ∀ r < w, (out r).Reducible (st r).aux.metal.cache op f k) :
    Round w (· = st) (fun r => reduce_scatter_one r w op i (out r) (ins r))
      (fun _ _ => chunk) fun st' => ∀ r < w, Kept (st r) (st' r) ∧
        ((∀ q < w, (∀ t ∈ ins q, t.shared = true) ∧ (out q).shared = true) →
          ScatterRound D f k op w chunk (i * w) out (listShare ins) st r (st' r)) := by
  refine .of_ranks _ (fun r s => Kept (st r) s ∧
      ((∀ q < w, (∀ t ∈ ins q, t.shared = true) ∧ (out q).shared = true) →
        ScatterRound D f k op w chunk (i * w) out (listShare ins) st r s))
    (fun r hr => reduce_scatter_one_raceFree h hr i) htag
    (fun r hr => reduce_scatter_one_staged _ h i st hr) fun x hx st₂ hst₂ r hr => ?_
  exact scatter_post h.out_valid h.out_nbytes (fun hsh r hr => (hsh r hr).2) hbatch hred hx hst₂ hr

end list

/-- The arguments of the ranks fit together: `n` rounds, round `i` with shares
    of `chunk i` bytes. What an earlier round writes is not used later. -/
structure ReduceScatterOk (w n : Nat) (chunk : Nat → Nat) (outputs : Nat → List Tensor)
    (inputs : Nat → List (List Tensor)) : Prop where
  outputs_length : ∀ r < w, (outputs r).length = n
  inputs_length : ∀ r < w, (inputs r).length = n
  one : ∀ i < n, ReduceScatterOneOk w (chunk i) (fun r => entry (outputs r) i)
    fun r => (inputs r).getD i []
  outputs_apart : ∀ r < w, ∀ i < n, ∀ i' < i, (entry (outputs r) i').Apart (entry (outputs r) i)
  inputs_apart : ∀ r < w, ∀ i < n, ∀ i' < i, ∀ t ∈ (inputs r).getD i [],
    t.Apart (entry (outputs r) i')

section list_rounds
variable {n : Nat} {chunk : Nat → Nat} {op : RedOpType} {f : Nat → Format} {k : BinaryOp}
  {outputs : Nat → List Tensor} {inputs : Nat → List (List Tensor)}

/-- Where the shares of round `i` are. -/
def roundShare (inputs : Nat → List (List Tensor)) (i : Nat) : Nat → Nat → Addr :=
  listShare fun r => (inputs r).getD i []

theorem ReduceScatterOk.scatterOk (h : ReduceScatterOk w n chunk outputs inputs) :
    ScatterOk w n chunk (fun i r => entry (outputs r) i) (roundShare inputs) where
  out_valid := fun i hi => (h.one i hi).out_valid
  out_nbytes := fun i hi => (h.one i hi).out_nbytes
  outs_apart := h.outputs_apart
  share_user := fun i hi r hr p hp =>
    ((h.one i hi).ins_valid r hr _ ((h.one i hi).ins_entry hr hp)).user
  share_apart := fun r hr i hi i' hi' p hp j hj => by
    have hmem := (h.one i hi).ins_entry hr hp
    refine h.inputs_apart r hr i hi i' hi' _ hmem (Tensor.byte_mem_span ?_)
    rwa [(h.one i hi).ins_nbytes r hr _ hmem]

theorem reduce_scatter_exchanges (h : ReduceScatterOk w n chunk outputs inputs)
    {st : Nat → RankState D} (htag : SameTag w st)
    (hbatch : ∀ r < w, (st r).aux.metal.batch_cmd = none)
    (hred : ∀ i < n, ∀ r < w, (entry (outputs r) i).Reducible (st r).aux.metal.cache op (f i) k) :
    Exchanges w n (fun i _ _ => chunk i)
      (fun r => reduce_scatter_body r w op (outputs r) (inputs r)) st
      fun st' => ∀ r < w, Kept (st r) (st' r) ∧
        ((∀ q < w, (∀ ts ∈ inputs q, ∀ t ∈ ts, t.shared = true) ∧ ∀ t ∈ outputs q, t.shared = true) →
          Pending D f k op w n chunk (fun i r => entry (outputs r) i) (roundShare inputs) st r
            (st' r)) where
  rounds := by
    refine ⟨fun i st' => ∀ r < w, Kept (st r) (st' r) ∧
        ((∀ q < w, (∀ ts ∈ inputs q, ∀ t ∈ ts, t.shared = true) ∧ ∀ t ∈ outputs q, t.shared = true) →
          Pending D f k op w i chunk (fun i r => entry (outputs r) i) (roundShare inputs) st r
            (st' r)),
      fun r i => reduce_scatter_one r w op i (entry (outputs r) i) ((inputs r).getD i []),
      fun r hr => ?_, fun r _ => ⟨⟨rfl, rfl, rfl, rfl⟩, fun _ => .zero st r⟩, fun i hi => ?_,
      fun _ h => h⟩
    · have hlen := (h.outputs_length r hr).trans (h.inputs_length r hr).symm
      rw [reduce_scatter_body, Proc.check_pos hlen, Proc.ret_bind, h.outputs_length r hr]
    · have hone := h.one i hi
      refine .of_forall (fun r hr => reduce_scatter_one_raceFree hone hr i) fun st' hst' => ?_
      have hround := reduce_scatter_one_round (f := f i) (k := k) op hone i st'
        (fun r hr q hq => by rw [(hst' r hr).1.tag, (hst' q hq).1.tag, htag r hr q hq])
        (fun r hr => (hst' r hr).1.batch.trans (hbatch r hr))
        (fun r hr => (hst' r hr).1.cache.symm ▸ hred i hi r hr)
      refine ⟨_, hround, fun st'' hst'' r hr => ⟨(hst' r hr).1.trans (hst'' r hr).1, fun hsh => ?_⟩⟩
      refine Pending.succ h.scatterOk hi (fun q hq => (hst' q hq).2 hsh) hr
        ((hst'' r hr).2 fun q hq => ⟨fun t ht => ?_, (hsh q hq).2 _ (entry_mem ?_)⟩)
      · refine (hsh q hq).1 _ ?_ t ht
        rw [List.getD_eq_getElem _ _ (by rwa [h.inputs_length q hq])]
        exact List.getElem_mem _
      · rwa [h.outputs_length q hq]

end list_rounds

end Mccl
