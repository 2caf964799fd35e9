import Mccl.Backend.PointToPoint
import Mccl.Framework.Sequence

/-! # Sequences of Engine Operations

    What the engines make of a list of operations: broadcasts, the six
    pairwise-exchange collectives, and messages from one rank to another.

    * `EngineOp`: an operation with the arguments of every rank.
    * `EngineOp.triple`: what the ranks that take part do together.
    * **Main result** (`engine_ops_deliver`): however the engines, their helper
      threads and the channels interleave, every operation of the list ends with
      its specified output on every rank. -/

namespace Mccl

open ForkJoin Arrays

variable {D : Device UInt8} {cap : ℕ∞} {w : Nat}

/-! ## Broadcast -/

/-- The arguments of the ranks fit together. -/
structure BroadcastOk (w root : Nat) (tensors : Nat → List Tensor) : Prop where
  root_lt : root < w
  length_pos : tensors root ≠ []
  length_eq : ∀ r < w, (tensors r).length = (tensors root).length
  valid : ∀ r < w, ∀ t ∈ tensors r, t.Valid
  nbytes_eq : ∀ r < w, ∀ i < (tensors root).length,
    (entry (tensors r) i).nbytes = (entry (tensors root) i).nbytes
  apart : ∀ r < w, ∀ i < (tensors root).length, ∀ i' < i,
    (entry (tensors r) i').Apart (entry (tensors r) i)

/-- Every tensor of rank `r` holds the root's bytes. -/
structure BroadcastSpec (root : Nat) (tensors : Nat → List Tensor) (m : Nat → Addr → UInt8) (r : Nat)
    (m' : Addr → UInt8) : Prop where
  bytes : ∀ i < (tensors root).length, ∀ j < (entry (tensors r) i).nbytes,
    (entry (tensors r) i).byte m' j = (entry (tensors root) i).byte (m root) j
  frame : Untouched (tensors r) (m r) m'

theorem BroadcastOk.entry_mem {root : Nat} {tensors : Nat → List Tensor}
    (h : BroadcastOk w root tensors) {r i : Nat} (hr : r < w) (hi : i < (tensors root).length) :
    entry (tensors r) i ∈ tensors r :=
  Mccl.entry_mem (by rwa [h.length_eq r hr])

section broadcast
variable {root : Nat} {ts : Nat → Tensor} {st : Nat → RankState D}

/-- The threads of rank `r`; the root sends what it has staged. -/
def broadcastThreads (w root : Nat) (ts : Nat → Tensor) (sb : StagingBuffer) (r : Nat) :
    List (Thread Nat Addr) :=
  if r = root then (peers root w).map fun p => [mesh_send p sb.data sb.nbytes]
  else [[mesh_recv root (ts r).addr (ts r).nbytes]]

theorem broadcast_tensor_eq {r : Nat} (hok : (ts r).Ok) (hsh : r ≠ root → (ts r).shared = true) :
    (broadcast_tensor r w root (ts r) : RankProg D Unit) =
      ((if r = root then stage_for_send_nosync (ts root) else .ret default) >>= fun sb =>
        .fork (broadcastThreads w root ts sb r)) := by
  rw [broadcast_tensor, check_mps_eq hok, Proc.ret_bind]
  -- The root stages its tensor; any other rank receives in place, which needs shared storage.
  by_cases hr : r = root
  · subst hr
    simp only [if_true, broadcastThreads]
  · simp only [if_neg hr, Proc.ret_bind, extract_mps_buffer_eq hok, hok.cpu_ptr_eq, hsh hr, if_true,
      broadcastThreads]

theorem broadcastThreads_indep (sb : StagingBuffer) (r : Nat) :
    (broadcastThreads w root ts sb r).Pairwise Thread.Indep := by
  unfold broadcastThreads
  split
  · rw [List.pairwise_map]
    refine (nodup_peers root w).imp fun {p q} hpq => ?_
    constructor <;> simp [mesh_send, Ne.symm hpq]
  · exact List.pairwise_singleton _ _

/-- What the root sends to `p`. -/
def broadcastMessage (root : Nat) (ts : Nat → Tensor) (sb : StagingBuffer) (p : Nat) :
    Xfer Nat Addr :=
  ⟨root, span sb.data sb.nbytes, p, (ts p).span⟩

theorem mem_broadcastThreads (sb : StagingBuffer) {r : Nat} (hr : r < w) (t : Thread Nat Addr) :
    t ∈ broadcastThreads w root ts sb r ↔
      (∃ m ∈ (peers root w).map (broadcastMessage root ts sb), m.from_ = r ∧ t = [.send m.to_ m.src]) ∨
      ∃ m ∈ (peers root w).map (broadcastMessage root ts sb), m.to_ = r ∧
        t = [.recv m.from_ m.dst] := by
  simp only [List.mem_map, exists_exists_and_eq_and, broadcastMessage, broadcastThreads, mem_peers]
  -- The root sends all messages, any other rank receives one of them.
  by_cases hroot : r = root
  · subst hroot
    simp [mesh_send, mem_peers, eq_comm]
  · have hne : ∀ p, ¬ ((p < w ∧ p ≠ root) ∧ root = r ∧ t = [.send p (span sb.data sb.nbytes)]) :=
      fun p h => hroot h.2.1.symm
    simp [hroot, hne, hr, mesh_recv, Tensor.span]

/-- What one tensor of a broadcast leaves behind. -/
structure BroadcastTensor (root : Nat) (ts : Nat → Tensor) (st : Nat → RankState D) (r : Nat)
    (s : RankState D) : Prop where
  calm : Calm (st r) s
  bytes : (ts root).shared = true → ∀ j < (ts r).nbytes,
    (ts r).byte s.mem j = (ts root).byte (st root).mem j
  frame : (ts root).shared = true → Untouched [ts r] (st r).mem s.mem

theorem BroadcastTensor.of_moved {st₁ st' : Nat → RankState D} {sb : StagingBuffer} {r : Nat}
    (hr : r < w) (hcalm : Calm (st r) (st₁ r)) (hn : (ts r).nbytes = sb.nbytes)
    (hmem : (ts root).shared = true → (∀ r, (st₁ r).mem = (st r).mem) ∧ sb.data = (ts root).addr)
    (hmoved : Moved ((peers root w).map (broadcastMessage root ts sb)) st₁ st') :
    BroadcastTensor root ts st r (st' r) where
  calm := hcalm.trans (.of_aux (hmoved.tag r) (hmoved.aux r))
  bytes := by
    intro hsh j hj
    obtain ⟨hsame, hdata⟩ := hmem hsh
    by_cases hroot : r = root
    · -- Nothing is sent to the root.
      subst hroot
      have hkeep : (st' r).mem ((ts r).addr.1, (ts r).addr.2 + j) =
          (st₁ r).mem ((ts r).addr.1, (ts r).addr.2 + j) := by
        refine hmoved.frame r _ fun x hx hxr => ?_
        obtain ⟨p, hp, rfl⟩ := List.mem_map.mp hx
        exact absurd hxr (mem_peers.mp hp).2
      rw [Tensor.byte, hkeep, hsame]
      rfl
    · -- The message went from the storage of the root's tensor to that of this one.
      have hget := hmoved.moved _ (List.mem_map_of_mem (mem_peers.mpr ⟨hr, hroot⟩)) j _ _
        (getElem?_span sb.data (hn ▸ hj)) (getElem?_span (ts r).addr hj)
      rw [hdata] at hget
      exact hget.trans (congrFun (hsame root) _)
  frame := by
    intro hsh id j hj
    have hkeep : (st' r).mem (.mtl id, j) = (st₁ r).mem (.mtl id, j) := by
      refine hmoved.frame r _ fun x hx hxr => ?_
      obtain ⟨p, -, rfl⟩ := List.mem_map.mp hx
      obtain rfl : p = r := hxr
      exact hj (ts p) (List.mem_singleton_self _)
    rw [hkeep, (hmem hsh).1]

/-- The root has staged its tensor. -/
def rootStaged (root : Nat) (t : Tensor) (st : Nat → RankState D) (r : Nat) : RankState D :=
  if r = root then staged t (st root) else st r

theorem rootStaged_calm (root : Nat) (t : Tensor) (st : Nat → RankState D) (r : Nat) :
    Calm (st r) (rootStaged root t st r) := by
  unfold rootStaged
  split
  · rename_i hr
    rw [hr]
    exact staged_calm _ _
  · exact .refl _

theorem rootStaged_mem {t : Tensor} (hsh : t.shared = true) (st : Nat → RankState D) (r : Nat) :
    (rootStaged root t st r).mem = (st r).mem := by
  unfold rootStaged
  split
  · rename_i hr
    rw [hr, staged_shared hsh]
  · rfl

theorem broadcast_round (hcap : 0 < cap) (hroot : root < w)
    (hn : ∀ r < w, (ts r).nbytes = (ts root).nbytes) (htag : ∀ r < w, (st r).tag = (st root).tag) :
    Triple cap (List.range w) (· = rootStaged root (ts root) st)
      (fun r => .fork (broadcastThreads w root ts ⟨stagedAt (ts root) (st root), (ts root).nbytes⟩ r))
      fun st' => ∀ r < w, BroadcastTensor root ts st r (st' r) := by
  refine .messages ((peers root w).map (broadcastMessage root ts _)) hcap ?_ ?_
    (fun r hr => mem_broadcastThreads _ (List.mem_range.mp hr))
    (fun r _ => broadcastThreads_indep _ _) ?_ ?_
  · intro m hm
    obtain ⟨p, hp, rfl⟩ := List.mem_map.mp hm
    obtain ⟨hlt, hne⟩ := mem_peers.mp hp
    have hlen : (span (stagedAt (ts root) (st root)) (ts root).nbytes).length = (ts p).span.length := by
      simp [Tensor.span, hn p hlt]
    exact ⟨hne.symm, hlen, nodup_span _ _, List.mem_range.mpr hroot, List.mem_range.mpr hlt⟩
  · rw [List.pairwise_map]
    exact (nodup_peers root w).imp fun hne h => hne (Prod.mk.inj h).2
  · rintro _ rfl m hm
    obtain ⟨p, hp, rfl⟩ := List.mem_map.mp hm
    simp only [broadcastMessage, (rootStaged_calm root (ts root) st _).tag]
    exact (htag p (mem_peers.mp hp).1).symm
  · rintro _ st' rfl hmoved r hr
    exact .of_moved hr (rootStaged_calm _ _ _ _) (hn r hr)
      (fun h => ⟨rootStaged_mem h st, stagedAt_shared h _⟩) hmoved

theorem broadcast_tensor_triple (hcap : 0 < cap) (hroot : root < w) (hok : ∀ r < w, (ts r).Ok)
    (hsh : ∀ r < w, r ≠ root → (ts r).shared = true)
    (hn : ∀ r < w, (ts r).nbytes = (ts root).nbytes) (htag : ∀ r < w, (st r).tag = (st root).tag) :
    Triple cap (List.range w) (· = st) (fun r => broadcast_tensor r w root (ts r))
      fun st' => ∀ r < w, BroadcastTensor root ts st r (st' r) := by
  have hrun : Triple cap (List.range w) (· = st)
      (fun r => (if r = root then stage_for_send_nosync (ts root) else .ret default) >>= fun sb =>
        .fork (broadcastThreads w root ts sb r))
      fun st' => ∀ r < w, BroadcastTensor root ts st r (st' r) := by
    refine .bind (fun r _ => .bind ?_ fun _ => ⟨broadcastThreads_indep _ _, trivial⟩) ?_
    · split
      · exact (stage_straight _).raceFree
      · trivial
    · rintro st rfl
      -- Only the root has something to prepare.
      let sb : StagingBuffer := ⟨stagedAt (ts root) (st root), (ts root).nbytes⟩
      refine ⟨fun r => if r = root then sb else default, rootStaged root (ts root) st,
        fun r _ => ?_, fun r hr => ?_, (broadcast_round hcap hroot hn htag).congr fun r _ => ?_⟩
      · unfold rootStaged
        by_cases h : r = root
        · subst h
          simp only [if_true]
          exact stage_computes (hok r hroot) _
        · simp only [h, if_false]
          exact Computes.ret _ _
      · have hne : r ≠ root := fun h => hr (h ▸ List.mem_range.mpr hroot)
        simp [rootStaged, hne]
      · by_cases h : r = root
        · simp [h, sb]
        · simp [h, broadcastThreads]
  exact hrun.congr fun r hr => broadcast_tensor_eq (hok r (List.mem_range.mp hr)) (hsh r (List.mem_range.mp hr))

variable {tensors : Nat → List Tensor}

/-- What the first `i` tensors of a broadcast leave behind. -/
structure BroadcastPart (root : Nat) (tensors : Nat → List Tensor) (st : Nat → RankState D) (i r : Nat)
    (s : RankState D) : Prop where
  calm : Calm (st r) s
  bytes : (∀ t ∈ tensors root, t.shared = true) → ∀ i' < i, ∀ j < (entry (tensors r) i').nbytes,
    (entry (tensors r) i').byte s.mem j = (entry (tensors root) i').byte (st root).mem j
  frame : (∀ t ∈ tensors root, t.shared = true) →
    Untouched ((List.range i).map fun i' => entry (tensors r) i') (st r).mem s.mem

theorem BroadcastPart.next (h : BroadcastOk w root tensors) {i : Nat} (hi : i < (tensors root).length)
    {st₁ : Nat → RankState D} (hst₁ : ∀ q < w, BroadcastPart root tensors st i q (st₁ q)) {r : Nat}
    (hr : r < w) {s : RankState D}
    (hs : BroadcastTensor root (fun r => entry (tensors r) i) st₁ r s) :
    BroadcastPart root tensors st (i + 1) r s := by
  refine ⟨(hst₁ r hr).calm.trans hs.calm, fun hsh i' hi' j hj => ?_, fun hsh => ?_⟩
  · have hsh' := hsh _ (h.entry_mem h.root_lt hi)
    rcases Nat.lt_succ_iff_lt_or_eq.mp hi' with hlt | rfl
    · -- The later tensor is elsewhere.
      rw [(hs.frame hsh').byte (h.valid r hr _ (h.entry_mem hr (by omega))).user
        (by simpa using h.apart r hr i hi i' hlt) hj]
      exact (hst₁ r hr).bytes hsh i' hlt j hj
    · -- The earlier tensors of the root are elsewhere, so this one was as at the beginning.
      rw [hs.bytes hsh' j hj]
      refine ((hst₁ root h.root_lt).frame hsh).byte (h.valid root h.root_lt _ (h.entry_mem h.root_lt hi)).user
        ?_ ((h.nbytes_eq r hr i' hi) ▸ hj)
      intro u hu
      obtain ⟨i, hlt, rfl⟩ := List.mem_map.mp hu
      exact (h.apart root h.root_lt i' hi i (List.mem_range.mp hlt)).symm
  · exact ((hst₁ r hr).frame hsh).succ (hs.frame (hsh _ (h.entry_mem h.root_lt hi)))

theorem broadcast_body_triple (hcap : 0 < cap) (h : BroadcastOk w root tensors)
    (hsh : ∀ r < w, r ≠ root → ∀ t ∈ tensors r, t.shared = true)
    (htag : ∀ r < w, (st r).tag = (st root).tag) :
    Triple cap (List.range w) (· = st) (fun r => broadcast_body r w root (tensors r)) fun st' =>
      ∀ r < w, Calm (st r) (st' r) ∧ ((∀ q < w, ∀ t ∈ tensors q, t.shared = true) →
        BroadcastSpec root tensors (mems st) r (st' r).mem) := by
  have hloop : Triple cap (List.range w) (· = st)
      (fun r => forM (List.range (tensors root).length) fun i =>
        broadcast_tensor r w root (entry (tensors r) i))
      fun st' => ∀ r < w, BroadcastPart root tensors st (tensors root).length r (st' r) := by
    -- `BroadcastPart` is the invariant of the loop over the tensors.
    refine .loop (fun i st' => ∀ r < w, BroadcastPart root tensors st i r (st' r)) ?_ ?_
    · exact fun r _ => ⟨.refl _, fun _ i hi => absurd hi (Nat.not_lt_zero i), fun _ _ _ _ => rfl⟩
    · intro i hi st₁ hst₁
      have htag₁ : ∀ r < w, (st₁ r).tag = (st₁ root).tag := by
        intro r hr
        rw [(hst₁ r hr).calm.tag, (hst₁ root h.root_lt).calm.tag, htag r hr]
      exact (broadcast_tensor_triple hcap h.root_lt (fun r hr => (h.valid r hr _ (h.entry_mem hr hi)).toOk)
        (fun r hr hne => hsh r hr hne _ (h.entry_mem hr hi)) (fun r hr => h.nbytes_eq r hr i hi)
        htag₁).conseq (fun _ h => h) fun st' hst' r hr => .next h hi hst₁ hr (hst' r hr)
  refine (hloop.congr fun r hr => ?_).conseq (fun _ h => h) fun st' hst' r hr =>
    ⟨(hst' r hr).calm, fun hall => ⟨(hst' r hr).bytes (hall root h.root_lt), ?_⟩⟩
  · rw [broadcast_body, h.length_eq r (List.mem_range.mp hr)]
  · refine ((hst' r hr).frame (hall root h.root_lt)).mono fun t ht => ?_
    obtain ⟨i, hi, rfl⟩ := List.mem_map.mp ht
    exact h.entry_mem hr (List.mem_range.mp hi)

end broadcast

/-! ## Messages -/

/-- Rank `src` sends what rank `dst` expects. -/
structure MessageOk (w src dst : Nat) (send_tag recv_tag : Int32) (sent received : List Tensor) :
    Prop where
  src_lt : src < w
  dst_lt : dst < w
  ne : src ≠ dst
  tag : recv_tag < 0 ∨ send_tag = recv_tag
  length_eq : received.length = sent.length
  sent_valid : ∀ t ∈ sent, t.Valid
  received_valid : ∀ t ∈ received, t.Valid
  nbytes_eq : ∀ i < sent.length, (entry sent i).nbytes = (entry received i).nbytes
  nbytes_lt : ∀ t ∈ sent, t.nbytes < 2 ^ 32
  apart : ∀ i < sent.length, ∀ i' < i, (entry received i').Apart (entry received i)

/-- The receiver has the sender's payload; nothing happens on other ranks. -/
structure MessageSpec (src dst : Nat) (sent received : List Tensor) (m : Nat → Addr → UInt8) (r : Nat)
    (m' : Addr → UInt8) : Prop where
  bytes : r = dst → ∀ i < sent.length, ∀ j < (entry received i).nbytes,
    (entry received i).byte m' j = (entry sent i).byte (m src) j
  frame : Untouched (if r = dst then received else []) (m r) m'

section message
variable {a b k : Nat} {m c : Message} {s u : RankState D} {st : Nat → RankState D}

theorem setTag_self {s : RankState D} (h : s.tag = k) : setTag k s = s := by
  rw [← h]
  rfl

theorem framed_calm (m : Message) (h : s.tag = k) : Calm s (framed k m s) := by
  have hstaged := staged_calm m.tensor (setTag k s)
  rw [framed, setTag_self h] at *
  exact hstaged.trans (.of_mem _ _)

theorem framed_sameUser (m : Message) (h : m.tensor.shared = true) (s : RankState D) :
    SameUser s.mem (framed k m s).mem := by
  intro id j
  rw [framed, staged_shared h]
  show store uint32Codec s.mem (heap 0) 2 (header m.tag (wireSize m.tensor)) (.mtl id, j) = _
  exact store_of_ne (by simp [heap])

theorem taken_calm (m c : Message) (s : RankState D) (h : u.tag = k) : Calm u (taken k m c s u) := by
  have hfilled : Calm u (filled k m s u) :=
    .of_aux ((Store.writes_tag _ _ _).trans ((emptied_tag k m s u).trans h.symm)) (filled_aux k m s u)
  exact hfilled.trans (unstaged_calm _ _ _)

theorem writes_sameUser (s : RankState D) (i n : Nat) (vs : List UInt8) :
    SameUser s.mem (s.writes (span (heap i) n) vs).mem := by
  intro id j
  refine Store.writes_mem_frame s vs fun h => ?_
  cases (mem_span.mp h).1

theorem filled_sameUser (m : Message) (s u : RankState D) : SameUser u.mem (filled k m s u).mem := by
  have hwaiting : SameUser u.mem (waiting k u).mem := fill_sameUser (by simp [heap]) _ _ _
  have hheaded : SameUser (waiting k u).mem (headed k m s u).mem := writes_sameUser _ _ _ _
  have hemptied : SameUser (headed k m s u).mem (emptied k m s u).mem :=
    fill_sameUser (by simp [heap]) _ _ _
  exact ((hwaiting.trans hheaded).trans hemptied).trans (writes_sameUser _ _ _ _)

theorem taken_untouched (m : Message) {c : Message} (h : c.tensor.shared = true) (s u : RankState D) :
    Untouched [c.tensor] u.mem (taken k m c s u).mem := by
  rw [taken, unstaged_mem h]
  exact (filled_sameUser m s u).untouched (copy_untouched _ _ _)

theorem taken_bytes (h : c.Takes m) (hm : m.tensor.shared = true) (huser : m.tensor.User)
    (hsize : m.tensor.nbytes < 2 ^ 32) (hu : u.aux.metal.committed = []) (htag : u.tag = k) {j : Nat}
    (hj : j < c.tensor.nbytes) :
    c.tensor.byte (taken k m c s u).mem j = m.tensor.byte s.mem j := by
  have hdelivered := delivered (i := k) (s := s) h hu
  rw [frame_payload k hm huser hsize, drain_mem ((taken_calm m c s htag).committed hu)] at hdelivered
  have hsame : m.tensor.nbytes = c.tensor.nbytes := by
    simpa [Tensor.span] using congrArg List.length hdelivered
  -- The payload and the tensor are equal as lists, so byte by byte.
  have hget := congrArg (·[j]?) hdelivered
  simp only [List.getElem?_map, Tensor.span, getElem?_span _ hj, getElem?_span _ (hsame ▸ hj),
    Option.map_some, Option.some.injEq] at hget
  exact hget.symm

/-- One frame goes from rank `a` to rank `b`. -/
theorem frame_triple (hcap : 0 < cap) (hab : a ≠ b) (hm : m.tensor.Ok) (hc : c.tensor.Ok)
    (h : c.Takes m) (ha : (st a).tag = k) (hb : (st b).tag = k) :
    Triple cap [a, b] (· = st)
      (fun r => if r = a then send_tensor b m.tag m.tensor else recv_tensor a c.tag c.tensor)
      (· = fun r => if r = a then framed k m (st a) else
        if r = b then taken k m c (st a) (st b) else st r) where
  raceFree := by
    intro r _
    split
    · exact send_tensor_raceFree _ _ _
    · exact recv_tensor_raceFree _ _ _
  run := by
    rintro st rfl k' _
    refine ⟨_, rfl, ?_⟩
    have hround : Reaches cap (transfer a b k m c (st a) (st b) (fun r => ⟨st r, k' r⟩)
        (· >>= fun _ => k' a) (· >>= fun _ => k' b)) _ :=
      frame_round hcap hab (Context.bind _) (Context.bind _) hm ⟨hc.mps, hc.contiguous, hc.admitted⟩ h
        hc.numel_pos
    rw [transfer, setTag_self ha, setTag_self hb] at hround
    -- `frame_round` is about a net of two ranks, so the others are made its background.
    have hstart : (fun r => (⟨st r, enter [a, b] (fun r => if r = a then send_tensor b m.tag m.tensor else
        recv_tensor a c.tag c.tensor) k' r⟩ : Node Nat Addr UInt8 (Local D Host))) =
        duo a b ⟨st a, send_tensor b m.tag m.tensor >>= fun _ => k' a⟩
          ⟨st b, recv_tensor a c.tag c.tensor >>= fun _ => k' b⟩ fun r => ⟨st r, k' r⟩ := by
      funext r
      by_cases hra : r = a
      · subst hra
        simp [enter]
      · by_cases hrb : r = b
        · subst hrb
          simp [enter, hra, duo]
        · simp [enter, hra, hrb, duo]
    have hend : (fun r => (⟨if r = a then framed k m (st a) else if r = b then taken k m c (st a) (st b)
        else st r, k' r⟩ : Node Nat Addr UInt8 (Local D Host))) =
        duo a b ⟨framed k m (st a), k' a⟩ ⟨taken k m c (st a) (st b), k' b⟩ fun r => ⟨st r, k' r⟩ := by
      funext r
      by_cases hra : r = a
      · subst hra
        simp
      · by_cases hrb : r = b
        · subst hrb
          simp [hra, duo]
        · simp [hra, hrb, duo]
    rw [hstart, hend]
    exact hround

variable {src dst : Nat} {send_tag recv_tag : Int32} {sent received : List Tensor}

theorem MessageOk.takes (h : MessageOk w src dst send_tag recv_tag sent received) {i : Nat}
    (hi : i < sent.length) :
    Message.Takes ⟨recv_tag, entry received i⟩ ⟨send_tag, entry sent i⟩ := by
  refine ⟨h.tag, ?_⟩
  rw [wireSize, UInt32.toNat_ofNat_of_lt' (h.nbytes_lt _ (entry_mem hi))]
  exact h.nbytes_eq i hi

/-- What the first `i` frames of a message leave behind. -/
structure MessagePart (src dst : Nat) (sent received : List Tensor) (st : Nat → RankState D) (i : Nat)
    (st' : Nat → RankState D) : Prop where
  others : ∀ r, r ≠ src → r ≠ dst → st' r = st r
  src_calm : Calm (st src) (st' src)
  dst_calm : Calm (st dst) (st' dst)
  src_same : (∀ t ∈ sent, t.shared = true) → SameUser (st src).mem (st' src).mem
  bytes : (∀ t ∈ sent, t.shared = true) → (∀ t ∈ received, t.shared = true) →
    ∀ i' < i, ∀ j < (entry received i').nbytes,
      (entry received i').byte (st' dst).mem j = (entry sent i').byte (st src).mem j
  frame : (∀ t ∈ received, t.shared = true) →
    Untouched ((List.range i).map fun i' => entry received i') (st dst).mem (st' dst).mem

theorem MessagePart.next (h : MessageOk w src dst send_tag recv_tag sent received) {i : Nat}
    (hi : i < sent.length) (hdst : (st dst).aux.metal.committed = [])
    (hsrc : (st src).tag = k) (htag : (st dst).tag = k)
    {st₁ : Nat → RankState D} (hst₁ : MessagePart src dst sent received st i st₁) :
    MessagePart src dst sent received st (i + 1) fun r =>
      if r = src then framed k ⟨send_tag, entry sent i⟩ (st₁ src) else
        if r = dst then taken k ⟨send_tag, entry sent i⟩ ⟨recv_tag, entry received i⟩ (st₁ src) (st₁ dst)
        else st₁ r := by
  have hi' : i < received.length := h.length_eq ▸ hi
  have htag₁ : (st₁ dst).tag = k := hst₁.dst_calm.tag.trans htag
  have hsent := h.sent_valid _ (entry_mem hi)
  constructor
  · intro r hra hrb
    simp only [if_neg hra, if_neg hrb]
    exact hst₁.others r hra hrb
  · simp only [if_true]
    exact hst₁.src_calm.trans (framed_calm _ (hst₁.src_calm.tag.trans hsrc))
  · simp only [if_neg h.ne.symm, if_true]
    exact hst₁.dst_calm.trans (taken_calm _ _ _ htag₁)
  · intro hsh
    simp only [if_true]
    exact (hst₁.src_same hsh).trans (framed_sameUser _ (hsh _ (entry_mem hi)) _)
  · intro hsh hsh' i' hlt j hj
    simp only [if_neg h.ne.symm, if_true]
    rcases Nat.lt_succ_iff_lt_or_eq.mp hlt with hlt | rfl
    · -- An earlier tensor is not written again.
      rw [(taken_untouched _ (hsh' _ (entry_mem hi')) _ _).byte
        (h.received_valid _ (entry_mem (hlt.trans hi'))).user (by simpa using h.apart i hi i' hlt) hj]
      exact hst₁.bytes hsh hsh' i' hlt j hj
    · -- Sending has not changed the tensors of the sender.
      rw [taken_bytes (h.takes hi) (hsh _ (entry_mem hi)) hsent.user (h.nbytes_lt _ (entry_mem hi))
        (hst₁.dst_calm.committed hdst) htag₁ hj]
      exact (hst₁.src_same hsh).byte hsent.user j
  · intro hsh'
    simp only [if_neg h.ne.symm, if_true]
    have htaken := taken_untouched (k := k) (c := ⟨recv_tag, entry received i⟩) ⟨send_tag, entry sent i⟩
      (hsh' _ (entry_mem hi')) (st₁ src) (st₁ dst)
    exact (hst₁.frame hsh').succ htaken

/-- The bodies of `send` and `recv`. -/
def messageBody (src dst : Nat) (send_tag recv_tag : Int32) (sent received : List Tensor) (r : Nat) :
    RankProg D Unit :=
  if r = src then forM (List.range sent.length) fun i => send_tensor dst send_tag (entry sent i)
  else forM (List.range received.length) fun i => recv_tensor src recv_tag (entry received i)

theorem message_triple (hcap : 0 < cap) (h : MessageOk w src dst send_tag recv_tag sent received)
    (hdst : (st dst).aux.metal.committed = []) (hsrc : (st src).tag = k) (htag : (st dst).tag = k) :
    Triple cap [src, dst] (· = st) (messageBody src dst send_tag recv_tag sent received)
      (MessagePart src dst sent received st sent.length) := by
  have hloop : Triple cap [src, dst] (· = st)
      (fun r => forM (List.range sent.length) fun i =>
        if r = src then send_tensor dst send_tag (entry sent i)
        else recv_tensor src recv_tag (entry received i))
      (MessagePart src dst sent received st sent.length) := by
    refine .loop (MessagePart src dst sent received st) ?_ ?_
    · exact ⟨fun _ _ _ => rfl, .refl _, .refl _, fun _ => .refl _,
        fun _ _ i hi => absurd hi (Nat.not_lt_zero i), fun _ _ _ _ => rfl⟩
    · intro i hi st₁ hst₁
      refine (frame_triple (m := ⟨send_tag, entry sent i⟩) (c := ⟨recv_tag, entry received i⟩) hcap h.ne
        (h.sent_valid _ (entry_mem hi)).toOk (h.received_valid _ (entry_mem (h.length_eq ▸ hi))).toOk
        (h.takes hi) (hst₁.src_calm.tag.trans hsrc) (hst₁.dst_calm.tag.trans htag)).conseq
        (fun _ h => h) ?_
      rintro _ rfl
      exact hst₁.next h hi hdst hsrc htag
  refine hloop.congr fun r _ => ?_
  unfold messageBody
  rw [h.length_eq]
  split <;> rfl

theorem MessagePart.spec {st' : Nat → RankState D}
    (h : MessagePart src dst sent received st sent.length st') (hlen : received.length = sent.length)
    (hsent : ∀ t ∈ sent, t.shared = true) (hreceived : ∀ t ∈ received, t.shared = true) (r : Nat) :
    MessageSpec src dst sent received (mems st) r (st' r).mem where
  bytes := by
    rintro rfl
    exact h.bytes hsent hreceived
  frame := by
    by_cases hdst : r = dst
    · subst hdst
      rw [if_pos rfl]
      refine (h.frame hreceived).mono fun t ht => ?_
      obtain ⟨i, hi, rfl⟩ := List.mem_map.mp ht
      exact entry_mem (hlen ▸ List.mem_range.mp hi)
    · rw [if_neg hdst]
      by_cases hsrc : r = src
      · subst hsrc
        exact fun id j _ => h.src_same hsent id j
      · rw [h.others r hsrc hdst]
        exact fun _ _ _ => rfl

end message

/-! ## Operations -/

/-- An operation that runs on the engines, with the arguments of every rank. -/
inductive EngineOp where
  | exchange (e : Exchange)
  | broadcast (root : Nat) (tensors : Nat → List Tensor)
  /-- Rank `src` calls `send`, and rank `dst` calls `recv`. -/
  | message (src dst : Nat) (send_tag recv_tag : Int32) (sent received : List Tensor)

namespace EngineOp

/-- The ranks that take part. -/
def parties (w : Nat) : EngineOp → List Nat
  | message src dst _ _ _ _ => [src, dst]
  | _ => List.range w

/-- The call of a rank that takes part. -/
def call (o : EngineOp) (w r : Nat) : RankCall D :=
  let pg : ProcessGroupMCCL := ⟨r, w⟩
  match o with
  | exchange e => e.call w r
  | broadcast root tensors => pg.broadcast root (tensors r)
  | message src dst send_tag recv_tag sent received =>
    if r = src then pg.send sent dst send_tag else pg.recv received src recv_tag

/-- What the engine of rank `r` runs, apart from completing the work. -/
def body (o : EngineOp) (w r : Nat) : RankProg D Unit :=
  match o with
  | exchange e => e.body w r
  | broadcast root tensors => broadcast_body r w root (tensors r)
  | message src dst send_tag recv_tag sent received =>
    messageBody src dst send_tag recv_tag sent received r

/-- The work of rank `r` is completed with `sync_cb`. -/
def syncs (r : Nat) : EngineOp → Bool
  | message src _ _ _ _ _ => r ≠ src
  | _ => true

/-- The arguments of the `w` ranks fit together. -/
def Valid (w : Nat) : EngineOp → Prop
  | exchange e => e.Valid w
  | broadcast root tensors => BroadcastOk w root tensors
  | message src dst send_tag recv_tag sent received =>
    MessageOk w src dst send_tag recv_tag sent received

/-- A device with kernels `c` on rank `r` can do the reduction, and a broadcast
    can be received in place. -/
def Supported (c : KernelCache) (r : Nat) : EngineOp → Prop
  | exchange e => e.Reduces c r
  | broadcast root tensors => r ≠ root → ∀ t ∈ tensors r, t.shared = true
  | message _ _ _ _ _ _ => True

/-- All tensors of rank `r` are in shared storage. -/
def Shared (r : Nat) : EngineOp → Prop
  | exchange e => e.Shared r
  | broadcast _ tensors => ∀ t ∈ tensors r, t.shared = true
  | message src dst _ _ sent received =>
    (r = src → ∀ t ∈ sent, t.shared = true) ∧ (r = dst → ∀ t ∈ received, t.shared = true)

/-- How the memory `m'` of rank `r` comes about from the memories `m` of all
    ranks before. -/
def Spec (D : Device UInt8) (w : Nat) (m : Nat → Addr → UInt8) (r : Nat) (m' : Addr → UInt8) :
    EngineOp → Prop
  | exchange e => e.Spec D w m r m'
  | broadcast root tensors => BroadcastSpec root tensors m r m'
  | message src dst _ _ sent received => MessageSpec src dst sent received m r m'

variable {o : EngineOp} {k : Nat} {st : Nat → RankState D} {r : Nat} {s : RankState D} {ops : List EngineOp}

theorem parties_lt (hv : o.Valid w) (hr : r ∈ o.parties w) : r < w := by
  cases o with
  | message src dst send_tag recv_tag sent received =>
    have hv : MessageOk w src dst send_tag recv_tag sent received := hv
    rcases List.mem_pair.mp hr with rfl | rfl
    · exact hv.src_lt
    · exact hv.dst_lt
  | exchange | broadcast => exact List.mem_range.mp hr

theorem call_eq (hv : o.Valid w) (hw : 2 ≤ w) (hr : r ∈ o.parties w) :
    (o.call w r : RankCall D) = async_submit_ (o.body w r) (o.syncs r) := by
  have hw' : w ≠ 1 := by omega
  cases o with
  | exchange e => exact e.call_eq hv hw (List.mem_range.mp hr)
  | broadcast root tensors =>
    have hv : BroadcastOk w root tensors := hv
    -- An empty list would be rejected before anything is submitted.
    have hne : tensors r ≠ [] := by
      intro hnil
      have hlen := hv.length_eq r (List.mem_range.mp hr)
      rw [hnil] at hlen
      exact hv.length_pos (List.length_eq_zero_iff.mp hlen.symm)
    simp [call, body, syncs, ProcessGroupMCCL.broadcast, hw', hne]
  | message src dst send_tag recv_tag sent received =>
    have hv : MessageOk w src dst send_tag recv_tag sent received := hv
    have hsrc := hv.src_lt
    have hdst := hv.dst_lt
    have hne := hv.ne
    rcases List.mem_pair.mp hr with rfl | rfl
    · simp only [call, if_true, ProcessGroupMCCL.send]
      rw [if_neg (by simp; omega)]
      simp [body, messageBody, syncs]
    · simp only [call, if_neg hne.symm, ProcessGroupMCCL.recv]
      rw [if_neg (by simp; omega)]
      simp [body, messageBody, syncs, hne.symm]

/-- The store in which the work is completed. -/
def ended (o : EngineOp) (r : Nat) (s : RankState D) : RankState D :=
  if o.syncs r then drain s else s

theorem ended_mem (o : EngineOp) (r : Nat) (h : s.aux.metal.committed = []) :
    (o.ended r s).mem = s.mem := by
  unfold ended
  split
  · exact drain_mem h
  · rfl

theorem ended_committed (o : EngineOp) (r : Nat) (h : s.aux.metal.committed = []) :
    (o.ended r s).aux.metal.committed = [] := by
  unfold ended
  split
  · rfl
  · exact h

/-- What the body of an operation leaves behind on rank `r`. -/
structure Ran (o : EngineOp) (w : Nat) (st : Nat → RankState D) (r : Nat) (s : RankState D) : Prop where
  kept : Kept (st r) s
  committed : (o.ended r s).aux.metal.committed = []
  spec : (∀ q < w, o.Shared q) → o.Spec D w (mems st) r (o.ended r s).mem

/-- An operation that leaves no kernels behind. -/
theorem Ran.of_calm (hcalm : Calm (st r) s)
    (hidle : (st r).aux.metal.Idle) (hspec : (∀ q < w, o.Shared q) → o.Spec D w (mems st) r s.mem) :
    o.Ran w st r s := by
  have hnone := hcalm.committed hidle.committed
  exact ⟨hcalm.kept, o.ended_committed r hnone, by rwa [o.ended_mem r hnone]⟩

theorem body_triple (hv : o.Valid w) (htag : ∀ r ∈ o.parties w, (st r).tag = k)
    (hidle : ∀ r < w, (st r).aux.metal.Idle)
    (hsup : ∀ r < w, o.Supported (st r).aux.metal.cache r) :
    Triple ⊤ (o.parties w) (· = st) (o.body w) fun st' =>
      ∀ r < w, o.Ran w st r (st' r) ∧ (r ∉ o.parties w → st' r = st r) := by
  have htop : (0 : ℕ∞) < ⊤ := ENat.top_pos
  cases o with
  | exchange e =>
    have htags : SameTag w st := fun r hr q hq =>
      (htag r (List.mem_range.mpr hr)).trans (htag q (List.mem_range.mpr hq)).symm
    refine ((e.exchanges hv htags hidle hsup).triple htop fun _ _ => fits_top _ _).conseq
      (fun _ h => h) fun st' hst' r hr => ⟨⟨(hst' r hr).1, rfl, (hst' r hr).2⟩, fun hout => ?_⟩
    exact absurd (List.mem_range.mpr hr) hout
  | broadcast root tensors =>
    have hv : BroadcastOk w root tensors := hv
    have htags : ∀ r < w, (st r).tag = (st root).tag := fun r hr =>
      (htag r (List.mem_range.mpr hr)).trans (htag root (List.mem_range.mpr hv.root_lt)).symm
    refine (broadcast_body_triple htop hv hsup htags).conseq (fun _ h => h) fun st' hst' r hr => ?_
    exact ⟨.of_calm (hst' r hr).1 (hidle r hr) (hst' r hr).2,
      fun hout => absurd (List.mem_range.mpr hr) hout⟩
  | message src dst send_tag recv_tag sent received =>
    have hv : MessageOk w src dst send_tag recv_tag sent received := hv
    refine (message_triple htop hv (hidle dst hv.dst_lt).committed (htag src (by simp [parties]))
      (htag dst (by simp [parties]))).conseq (fun _ h => h) fun st' hst' r hr => ?_
    -- Only the two ranks have done anything.
    have hcalm : Calm (st r) (st' r) := by
      by_cases hsrc : r = src
      · exact hsrc ▸ hst'.src_calm
      · by_cases hdst : r = dst
        · exact hdst ▸ hst'.dst_calm
        · rw [hst'.others r hsrc hdst]
          exact .refl _
    refine ⟨.of_calm hcalm (hidle r hr) fun hsh => ?_, fun hout => ?_⟩
    · exact hst'.spec hv.length_eq ((hsh src hv.src_lt).1 rfl) ((hsh dst hv.dst_lt).2 rfl) r
    · have hout' : r ≠ src ∧ r ≠ dst := by simpa [parties] using hout
      exact hst'.others r hout'.1 hout'.2

/-- What an operation leaves behind on rank `r` when its work is completed. -/
structure Completes (o : EngineOp) (w : Nat) (st : Nat → RankState D) (r : Nat) (s : RankState D) :
    Prop where
  cache : s.aux.metal.cache = (st r).aux.metal.cache
  idle : s.aux.metal.Idle
  works : s.aux.host.works = (st r).aux.host.works ++ if r ∈ o.parties w then [⟨none, s.mem⟩] else []
  spec : (∀ q < w, o.Shared q) → o.Spec D w (mems st) r s.mem

theorem Ran.completes (h : o.Ran w st r s) (hidle : (st r).aux.metal.Idle)
    (hr : r ∈ o.parties w) : o.Completes w st r (completed none (o.ended r s)) := by
  have hended : Kept s (o.ended r s) := by
    unfold ended
    split <;> exact ⟨rfl, rfl, rfl, rfl⟩
  have hkept := h.kept.trans hended
  refine ⟨hkept.cache, ⟨hkept.batch.trans hidle.batch, h.committed⟩, ?_, h.spec⟩
  rw [if_pos hr]
  exact congrArg (· ++ _) hkept.works

theorem Ran.idles (h : o.Ran w st r (st r)) (hidle : (st r).aux.metal.Idle)
    (hr : r ∉ o.parties w) : o.Completes w st r (st r) := by
  refine ⟨rfl, hidle, by simp [hr], fun hsh => ?_⟩
  have hspec := h.spec hsh
  rwa [o.ended_mem r hidle.committed] at hspec

theorem begun_mems (l : List Nat) (k : Nat) (st : Nat → RankState D) :
    mems (Triple.begun l k st) = mems st := by
  funext r
  unfold mems Triple.begun
  split <;> rfl

theorem begun_aux (l : List Nat) (k : Nat) (st : Nat → RankState D) (r : Nat) :
    (Triple.begun l k st r).aux = (st r).aux := by
  unfold Triple.begun
  split <;> rfl

/-- The calls that rank `r` makes for an operation with number `k`. -/
def callAt (o : EngineOp) (w k r : Nat) : List (Nat × RankCall D) :=
  if r ∈ o.parties w then [(k, o.call w r)] else []

/-- Setting the tag does not count. -/
theorem Completes.of_begun {l : List Nat}
    (h : o.Completes w (Triple.begun l k st) r s) : o.Completes w st r s := by
  have haux := begun_aux l k st r
  refine ⟨by rw [h.cache, haux], h.idle, by rw [h.works, haux], fun hsh => ?_⟩
  rw [← begun_mems l k st]
  exact h.spec hsh

/-- **One operation of all ranks.** -/
theorem triple (hv : o.Valid w) (hw : 2 ≤ w) (k : Nat) (hidle : ∀ r < w, (st r).aux.metal.Idle)
    (hsup : ∀ r < w, o.Supported (st r).aux.metal.cache r) :
    Triple ⊤ (List.range w) (· = st) (fun r => inTurn (o.callAt w k r)) fun st' =>
      ∀ r < w, o.Completes w st r (st' r) := by
  let st₀ : Nat → RankState D := Triple.begun (o.parties w) k st
  -- A call begins with its tag, so the body starts from `st₀`.
  have haux : ∀ r, (st₀ r).aux = (st r).aux := begun_aux _ k st
  have hidle₀ : ∀ r < w, (st₀ r).aux.metal.Idle := fun r hr => (haux r).symm ▸ hidle r hr
  have hbody : Triple ⊤ (o.parties w) (· = st₀) (o.body w) fun st' =>
      ∀ r < w, o.Ran w st₀ r (st' r) ∧ (r ∉ o.parties w → st' r = st₀ r) :=
    body_triple (k := k) hv (fun r hr => by simp [st₀, Triple.begun, hr, setTag]) hidle₀
      fun r hr => (haux r).symm ▸ hsup r hr
  -- The parties complete their works; on the other ranks nothing has happened.
  have hfinish : Triple ⊤ (o.parties w)
      (fun st' => ∀ r < w, o.Ran w st₀ r (st' r) ∧ (r ∉ o.parties w → st' r = st₀ r))
      (fun r => finish (o.syncs r)) fun st' => ∀ r < w, o.Completes w st₀ r (st' r) := by
    refine .comp (fun _ _ => .modify _) fun st₁ hst₁ => ⟨fun r => if r ∈ o.parties w then
      completed none (o.ended r (st₁ r)) else st₁ r, fun r hr => ?_, fun r hr => ?_, fun r hr => if_neg hr⟩
    · obtain ⟨hran, hsame⟩ := hst₁ r hr
      by_cases hparty : r ∈ o.parties w
      · simp only [hparty, if_true]
        exact hran.completes (hidle₀ r hr) hparty
      · simp only [hparty, if_false]
        rw [hsame hparty] at hran ⊢
        exact hran.idles (hidle₀ r hr) hparty
    · simp only [hr, if_true]
      exact Computes.modify _ _
  have htask : Triple ⊤ (o.parties w) (· = st₀)
      (fun r => (async_submit_ (o.body w r) (o.syncs r)).prog)
      fun st' => ∀ r < w, o.Completes w st₀ r (st' r) :=
    (hbody.seq hfinish).tryCatch fun _ _ _ => .modify _
  refine ((Triple.call k htask).conseq (fun _ h => h) fun st' hst' r hr => (hst' r hr).of_begun).extend
    (fun r hr => List.mem_range.mpr (parties_lt hv hr)) (fun r hr => ?_) fun r _ hr => ?_
  · simp only [callAt, hr, if_true, call_eq hv hw hr]
    rfl
  · simp only [callAt, hr, if_false]
    rfl

/-! ## Sequences -/

/-- The calls of rank `r` for a list of operations, the first of which has
    number `k`. -/
def calls (w r : Nat) : (k : Nat) → List EngineOp → List (Nat × RankCall D)
  | _, [] => []
  | k, o :: ops => o.callAt w k r ++ calls w r (k + 1) ops

/-- Starting from the memories `m`, the operations complete one after the other,
    each with its specified output; `works r` is what rank `r` has completed. -/
inductive Delivers (D : Device UInt8) (w : Nat) :
    List EngineOp → (Nat → Addr → UInt8) → (Nat → List Work) → Prop where
  | nil (m : Nat → Addr → UInt8) : Delivers D w [] m fun _ => []
  | cons {o : EngineOp} {ops : List EngineOp} {m m' : Nat → Addr → UInt8} {works : Nat → List Work}
      (hspec : ∀ r < w, o.Spec D w m r (m' r)) (hrest : Delivers D w ops m' works) :
      Delivers D w (o :: ops) m fun r =>
        (if r ∈ o.parties w then [⟨none, m' r⟩] else []) ++ works r

theorem calls_triple (hw : 2 ≤ w) (hv : ∀ o ∈ ops, o.Valid w)
    (hsh : ∀ o ∈ ops, ∀ r < w, o.Shared r) (hidle : ∀ r < w, (st r).aux.metal.Idle)
    (hsup : ∀ o ∈ ops, ∀ r < w, o.Supported (st r).aux.metal.cache r) (k : Nat) :
    Triple ⊤ (List.range w) (· = st) (fun r => inTurn (calls w r k ops)) fun st' =>
      ∃ works, Delivers D w ops (mems st) works ∧
        ∀ r < w, (st' r).aux.host.works = (st r).aux.host.works ++ works r := by
  induction ops generalizing st k with
  | nil =>
    refine (Triple.skip _ _).conseq (fun _ h => h) ?_
    rintro _ rfl
    exact ⟨_, .nil _, by simp⟩
  | cons o ops ih =>
    -- What an operation leaves behind is what the next one starts from.
    have hfirst := o.triple (hv o (by simp)) hw k hidle (hsup o (by simp))
    refine (hfirst.andThen (q := fun r => inTurn (calls w r (k + 1) ops)) fun st₁ hst₁ => ?_).congr
      fun r _ => inTurn_append _ _
    have hrest := ih (fun o' ho' => hv o' (by simp [ho'])) (fun o' ho' => hsh o' (by simp [ho']))
      (fun r hr => (hst₁ r hr).idle)
      (fun o' ho' r hr => (hst₁ r hr).cache.symm ▸ hsup o' (by simp [ho']) r hr) (k + 1)
    refine hrest.conseq (fun _ h => h) fun st' ⟨works, hdel, hworks⟩ => ⟨_, .cons (fun r hr =>
      (hst₁ r hr).spec (hsh o (by simp))) hdel, fun r hr => ?_⟩
    rw [hworks r hr, (hst₁ r hr).works, List.append_assoc]

theorem calls_eq_nil (hv : ∀ o ∈ ops, o.Valid w) (hr : r ∉ List.range w)
    (k : Nat) : (calls w r k ops : List (Nat × RankCall D)) = [] := by
  induction ops generalizing k with
  | nil => rfl
  | cons o ops ih =>
    have hout : r ∉ o.parties w := fun h => hr (List.mem_range.mpr (parties_lt (hv o (by simp)) h))
    rw [calls, callAt, if_neg hout, ih (fun o' ho' => hv o' (by simp [ho']))]
    rfl

theorem calls_submit (hw : 2 ≤ w) (hv : ∀ o ∈ ops, o.Valid w) (r k : Nat)
    {c : Nat × RankCall D} (hc : c ∈ calls w r k ops) : ∃ t, c.2 = .submit t := by
  induction ops generalizing k with
  | nil => simp [calls] at hc
  | cons o ops ih =>
    rcases List.mem_append.mp hc with hc | hc
    · unfold callAt at hc
      split at hc
      · -- With two ranks or more no operation is completed inline.
        obtain rfl := List.mem_singleton.mp hc
        exact ⟨_, call_eq (hv o (by simp)) hw ‹_›⟩
      · cases hc
    · exact ih (fun o' ho' => hv o' (by simp [ho'])) (k + 1) hc

end EngineOp

/-- **Correctness of any sequence.** However the engines, their helper threads
    and the channels interleave, a list of operations comes to an end, and every
    operation has its specified output on every rank. -/
theorem engine_ops_deliver (hw : 2 ≤ w) {ops : List EngineOp} (hv : ∀ o ∈ ops, o.Valid w)
    (hsh : ∀ o ∈ ops, ∀ r < w, o.Shared r) {st : Nat → RankState D}
    (hidle : ∀ r < w, (st r).aux.metal.Idle)
    (hsup : ∀ o ∈ ops, ∀ r < w, o.Supported (st r).aux.metal.cache r) :
    Acc (fun g' g => Group.Step ⊤ g g') (Group.init st fun r => EngineOp.calls w r 0 ops) ∧
    ∀ g, Group.Reaches ⊤ (Group.init st fun r => EngineOp.calls w r 0 ops) g →
      (g.Finished ∨ ∃ g', Group.Step ⊤ g g') ∧
      (g.Finished → ∃ works, EngineOp.Delivers D w ops (mems st) works ∧
        ∀ r < w, (g.member r).aux.host.works = (st r).aux.host.works ++ works r) := by
  obtain ⟨hacc, hruns⟩ := (EngineOp.calls_triple hw hv hsh hidle hsup 0).engines
    (fun r hr => EngineOp.calls_eq_nil hv hr 0) fun r c hc => EngineOp.calls_submit hw hv r 0 hc
  refine ⟨hacc, fun g hg => ⟨(hruns g hg).1, fun hfin => ?_⟩⟩
  -- Whatever the schedule was, the end is the one that the triple describes.
  obtain ⟨st', ⟨works, hdel, hworks⟩, hsame⟩ := (hruns g hg).2 hfin
  exact ⟨works, hdel, fun r hr => by rw [(hsame r).2, hworks r hr]⟩

/-! ### Two ranks -/

/-- A gather, a broadcast from rank 1, and a message from rank 0 to rank 1. -/
def smallOps : List EngineOp :=
  [.exchange (smallGather 1), .broadcast 1 fun _ => [userTensor .Float 0 2],
    .message 0 1 5 (-1) [userTensor .Int 0 3] [userTensor .Float 2 3]]

theorem userTensor_valid (dtype : ScalarType) (h : admitted dtype = true) (id : Nat) {n : Nat}
    (hn : 0 < n) : (userTensor dtype id n).Valid :=
  ⟨⟨rfl, rfl, h, by simpa [Tensor.numel, userTensor] using hn⟩, id, rfl⟩

theorem smallOps_valid : ∀ o ∈ smallOps, o.Valid 2 := by
  have hlen : ∀ {i : Nat}, i < 1 → i = 0 := fun h => by omega
  simp only [smallOps, List.mem_cons, List.not_mem_nil, or_false, forall_eq_or_imp, forall_eq]
  refine ⟨smallGather_valid Nat.one_pos, ⟨by decide, by simp, fun _ _ => rfl, ?_, ?_, ?_⟩,
    ⟨by decide, by decide, by decide, .inl (by decide), rfl, ?_, ?_, ?_, ?_, ?_⟩⟩
  · simpa using fun _ _ => userTensor_valid .Float rfl 0 Nat.two_pos
  · exact fun _ _ _ _ => rfl
  · intro r _ i hi i' hlt
    have := hlen hi
    omega
  · simpa using userTensor_valid .Int rfl 0 (Nat.succ_pos 2)
  · simpa using userTensor_valid .Float rfl 2 (Nat.succ_pos 2)
  · intro i hi
    obtain rfl := hlen hi
    rfl
  · simp only [List.mem_singleton, forall_eq]
    decide
  · intro i hi i' hlt
    have := hlen hi
    omega

theorem smallOps_shared : ∀ o ∈ smallOps, ∀ r < 2, o.Shared r := by
  simp [smallOps, EngineOp.Shared, Exchange.Shared, smallGather, userTensor]

theorem smallOps_deliver : ∃ g, Group.Reaches ⊤ (Group.init freshState fun r =>
      EngineOp.calls 2 r 0 smallOps) g ∧ g.Finished ∧
    ∃ works, EngineOp.Delivers byteDevice 2 smallOps (mems freshState) works ∧
      ∀ r < 2, (g.member r).aux.host.works = works r := by
  obtain ⟨hacc, hruns⟩ := engine_ops_deliver le_rfl smallOps_valid smallOps_shared
    (show ∀ r < 2, (freshState r).aux.metal.Idle from fun _ _ => ⟨rfl, rfl⟩)
    (by simp [smallOps, EngineOp.Supported, userTensor, smallGather, Exchange.Reduces])
  obtain ⟨g, hg, hterm⟩ := Rewriting.exists_terminal hacc
  rcases (hruns g hg).1 with hfin | ⟨g', hstep⟩
  · exact ⟨g, hg, hfin, (hruns g hg).2 hfin⟩
  · exact absurd hstep (hterm g')

/-- Rank 1 has one byte for each rank, and rank 0 has none. -/
def unevenBlocks (r _ : Nat) : Nat := r

def unevenInput (r : Nat) : Tensor := userTensor .Byte 0 (2 * r)

def unevenSplits (n : Nat → Nat) : List Int := [(n 0 : Int), (n 1 : Int)]

def unevenOp : EngineOp :=
  .exchange (.alltoall_base 1 unevenBlocks (fun _ => userTensor .Byte 1 1) unevenInput
    (fun r => unevenSplits fun p => unevenBlocks p r) fun r => unevenSplits (unevenBlocks r))

theorem local_task_reaches (cap : ℕ∞) {g : Group Nat Addr UInt8 (Local D Host)} {r k : Nat} {t : RankProg D Unit}
    {f : RankState D → RankState D} (he : (g.member r).engine = .ret ())
    (hq : (g.member r).queue = []) (hc : (g.member r).caller = .ret ())
    (hcalls : (g.member r).calls = [(k, .submit t)]) (ht : guarded t = .modify f) :
    ∃ g', Group.Reaches cap g g' ∧ (g'.member r).Finished ∧
      (g'.member r).mem = (f ⟨(g.member r).mem, (g.member r).aux, k⟩).mem ∧
      (g'.member r).aux = (f ⟨(g.member r).mem, (g.member r).aux, k⟩).aux := by
  let m := ((g.member r).submitted k t []).taken k t []
  have hm : (g.setMember r m).member r = m := g.setMember_self r m
  have hnode : NodeStep (((g.setMember r m).member r).node .engine) none .tau
      ⟨f ⟨(g.member r).mem, (g.member r).aux, k⟩, .ret ()⟩ := by
    rw [hm]
    simp only [m, Member.node, Member.taken, ht]
    exact .act
  refine ⟨_, (Group.reaches_task hc he hq hcalls).tail (.run hnode (.tau _) (.tau _)), ?_⟩
  simp only [Function.update_self]
  rw [hm]
  exact ⟨⟨rfl, rfl, hc, rfl⟩, rfl, rfl⟩

/-- What the engine of rank 0 makes of it. -/
theorem unevenOp_raises : (EngineOp.calls 2 0 0 [unevenOp] : List (Nat × RankCall byteDevice)) =
    [(0, .submit ((unevenOp.call 2 0).prog))] ∧
    guarded ((unevenOp.call 2 0).prog : RankProg byteDevice Unit) =
      .modify (completed (some "MCCL does not accept empty tensors")) := by
  exact ⟨rfl, rfl⟩

/-- The split sizes are consistent, but rank 0 does not get its byte: an empty
    tensor is not accepted. -/
theorem empty_input_rejected :
    (∀ r < 2, Splits 2 (unevenInput r) (unevenBlocks r) (unevenSplits (unevenBlocks r)) ∧
      Splits 2 (userTensor .Byte 1 1) (fun p => unevenBlocks p r)
        (unevenSplits fun p => unevenBlocks p r)) ∧
    (∀ r < 2, unevenOp.Shared r) ∧
    ∃ g, Group.Reaches ⊤ (Group.init freshState fun r => EngineOp.calls 2 r 0 [unevenOp]) g ∧
      (g.member 0).Finished ∧
      (g.member 0).aux.host.works =
        [⟨some "MCCL does not accept empty tensors", (g.member 0).mem⟩] ∧
      ¬ unevenOp.Spec byteDevice 2 (mems freshState) 0 (g.member 0).mem := by
  refine ⟨fun r hr => ⟨⟨?_, .inr rfl, ?_⟩, ⟨rfl, .inr rfl, by decide⟩⟩, fun _ _ => ⟨rfl, rfl⟩, ?_⟩
  · simp [blockStart, unevenBlocks, unevenInput, userTensor, Tensor.numel]
    omega
  · have hbytes : (unevenInput r).nbytes = 2 * r := by
      simp [unevenInput, userTensor, Tensor.nbytes, Tensor.numel, Tensor.element_size,
        ScalarType.elementSize]
    omega
  · obtain ⟨hcalls, hprog⟩ := unevenOp_raises
    obtain ⟨g, hg, hfin, hmem, haux⟩ := local_task_reaches ⊤ (r := 0)
      (g := Group.init freshState fun r => EngineOp.calls 2 r 0 [unevenOp]) rfl rfl rfl hcalls hprog
    refine ⟨g, hg, hfin, ?_, fun hspec => ?_⟩
    · rw [haux, hmem]
      rfl
    · -- Rank 1 has the byte 1, and rank 0 keeps its 0.
      have hbyte := BlocksSpec.bytes hspec 1 Nat.one_lt_two 0 (by decide)
      rw [hmem] at hbyte
      exact absurd hbyte (by decide)

end Mccl
