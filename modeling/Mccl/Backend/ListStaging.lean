import Mccl.Backend.Encoding
import Mccl.Backend.ReduceScatter

/-! # Staging a List of Tensors

    `reduce_scatter` and `alltoall` stage all tensors of a list before they
    send any of them. Tensors in shared storage are sent from where they are,
    but all private tensors go through the one staging pool: each of them
    overwrites the one before, or has the pool replaced by a larger buffer.

    * `SendsOwn`: every peer is sent the bytes of its own tensor, from a
      buffer that still exists.
    * `Sendable`: a private tensor is the last one to be staged.
    * `staging_wp`: what the staging loop leaves behind. -/

namespace Mccl

open ForkJoin Arrays

variable {D : Device UInt8}

/-! ## What is sent -/

/-- The buffer has not been freed: it belongs to a tensor, or is the current
    buffer of the pool. -/
def Live (s : RankState D) (b : Buf) : Prop := (∃ id, b = .mtl id) ∨ b = .pool s.aux.host.pool.gen

/-- The threads send the bytes that the tensors have in `m`, each to its
    peer, from live buffers, and receive into heap buffers. -/
def SendsOwn (rank world : Nat) (ins : List Tensor) (m : Addr → UInt8) (ts : List (Thread Nat Addr))
    (s : RankState D) : Prop :=
  ∃ (src : Nat → Addr) (len : Nat → Nat),
    ts = (peers rank world).map (fun p =>
      [mesh_send p (src p) (entry ins p).nbytes, mesh_recv p (heap p) (len p)]) ∧
    ∀ p ∈ peers rank world,
      (∀ j < (entry ins p).nbytes, s.mem (off (src p) j) = (entry ins p).byte m j) ∧ Live s (src p).1

/-- The bytes that a kernel writes. -/
def Cmd.writes : Cmd D → List Addr
  | .binary _ f dst _ count => span dst (count * f.size)
  | .scale f buf _ count => span buf (count * f.size)

/-- No kernel that is still waiting writes to the tensor. -/
def Settled (t : Tensor) (s : RankState D) : Prop :=
  ∀ c ∈ s.aux.metal.committed.flatten, ∀ x ∈ t.span, x ∉ c.writes

/-- The tensors can be staged together: a private one for a peer is the last
    private one, and the output, which the rank's own tensor is copied to
    before anything is sent, is not private then. -/
structure Sendable (rank world : Nat) (out : Tensor) (ins : List Tensor) (s : RankState D) : Prop where
  out_user : out.User
  ins_user : ∀ p < world, (entry ins p).User
  settled : ∀ p < world, Settled (entry ins p) s
  apart : ∀ p < world, p ≠ rank → List.Disjoint out.span (entry ins p).span
  staged_last : ∀ p < world, p ≠ rank → (entry ins p).shared = false →
    out.shared = true ∧ ∀ q, p < q → q < world → (entry ins q).shared = true

/-! ## Pending kernels -/

theorem Cmd.exec_of_notMem {c : Cmd D} {m : Addr → UInt8} {x : Addr} (h : x ∉ c.writes) :
    c.exec m x = m x := by
  cases c with
  | binary op f dst src count | scale f buf factor count =>
    unfold Cmd.exec
    apply store_frame
    rwa [D.codec_size]

theorem Settled.drain_mem {t : Tensor} {s : RankState D} (h : Settled t s) {x : Addr}
    (hx : x ∈ t.span) : (drain s).mem x = s.mem x :=
  execAll_frame (fun c hc _ => Cmd.exec_of_notMem (h c hc x hx)) _

/-! ## Tensors in place -/

/-- The tensor still has the bytes it has in `m`, and will keep them when the
    waiting kernels run. -/
structure Intact (m : Addr → UInt8) (t : Tensor) (s : RankState D) : Prop where
  bytes : ∀ x ∈ t.span, s.mem x = m x
  settled : Settled t s

section intact

variable {m : Addr → UInt8} {t : Tensor} {s s' : RankState D}

theorem Tensor.User.ne_pool {x : Addr} (h : t.User) (hx : x ∈ t.span) (gen : Nat) : x.1 ≠ .pool gen := by
  obtain ⟨id, hid⟩ := h
  have hstorage : x.1 = t.storage := (mem_span.mp hx).1
  rw [hstorage, hid]
  exact Buf.noConfusion

theorem Tensor.User.ne_host {x : Addr} (h : t.User) (hx : x ∈ t.span) (i : Nat) : x.1 ≠ .host i := by
  obtain ⟨id, hid⟩ := h
  have hstorage : x.1 = t.storage := (mem_span.mp hx).1
  rw [hstorage, hid]
  exact Buf.noConfusion

theorem Intact.of_frame (h : Intact m t s) (hmem : ∀ x ∈ t.span, s'.mem x = s.mem x)
    (hcommitted : ∀ c ∈ s'.aux.metal.committed.flatten, c ∈ s.aux.metal.committed.flatten) :
    Intact m t s' := by
  constructor
  · intro x hx
    rw [hmem x hx, h.bytes x hx]
  · intro c hc
    exact h.settled c (hcommitted c hc)

theorem Intact.drain (h : Intact m t s) : Intact m t (drain s) := by
  apply h.of_frame fun x hx => h.settled.drain_mem hx
  intro c hc
  simp [Mccl.drain, setMetal] at hc

theorem Intact.copy (h : Intact m t s) {dst : Addr} (src : Addr) {n : Nat}
    (hdst : ∀ x ∈ t.span, x ∉ span dst n) : Intact m t { s with mem := copy s.mem dst src n } :=
  h.of_frame (fun x hx => copy_frame (hdst x hx)) fun _ hc => hc

theorem Intact.setPool (h : Intact m t s) (p : StagingPool) : Intact m t (setPool s p) :=
  h.of_frame (fun _ _ => rfl) fun _ hc => hc

theorem Intact.copy_pool (h : Intact m t s) (hu : t.User) (p : StagingPool) (src : Addr) (n : Nat) :
    Intact m t { s with mem := Arrays.copy s.mem p.ptr src n } := by
  apply h.copy src
  intro x hx hmem
  exact hu.ne_pool hx p.gen (mem_span.mp hmem).1

theorem Intact.staged (h : Intact m t s) (hu : t.User) (t' : Tensor) : Intact m t (staged t' s) := by
  unfold Mccl.staged
  split
  · exact h
  · exact ((h.setPool _).drain).copy_pool hu _ _ _

theorem Intact.unstaged (h : Intact m t s) (hu : t.User) {out : Tensor}
    (hout : List.Disjoint out.span t.span) (src : Addr) : Intact m t (unstaged out src s) := by
  have hdst : ∀ x ∈ t.span, x ∉ Arrays.span out.addr out.nbytes := fun x hx hx' => hout hx' hx
  have hpool : Intact m t (unstagePool src out.nbytes s) := by
    unfold unstagePool
    split
    · exact h
    · exact (h.setPool (s.aux.host.pool.ensure out.nbytes)).copy_pool hu
        (s.aux.host.pool.ensure out.nbytes) src out.nbytes
  unfold Mccl.unstaged
  split
  · exact h.copy src hdst
  · exact hpool.drain.copy _ hdst

end intact

/-! ## The pool -/

/-- The staged bytes of the tensor are at the start of the pool. -/
structure InPool (m : Addr → UInt8) (t : Tensor) (sb : StagingBuffer) (s : RankState D) : Prop where
  eq : sb = ⟨s.aux.host.pool.ptr, t.nbytes⟩
  bytes : ∀ j < t.nbytes, s.mem (off s.aux.host.pool.ptr j) = t.byte m j

/-- Only heap buffers have changed. -/
structure HeapOnly (s s' : RankState D) : Prop where
  aux : s'.aux = s.aux
  mem : ∀ x, (∀ i, x.1 ≠ .host i) → s'.mem x = s.mem x

section pool

variable {m : Addr → UInt8} {t : Tensor} {sb : StagingBuffer} {s s' s'' : RankState D}

theorem HeapOnly.refl (s : RankState D) : HeapOnly s s := ⟨rfl, fun _ _ => rfl⟩

theorem HeapOnly.trans (h : HeapOnly s s') (h' : HeapOnly s' s'') : HeapOnly s s'' :=
  ⟨h'.aux.trans h.aux, fun x hx => (h'.mem x hx).trans (h.mem x hx)⟩

theorem HeapOnly.vector (i n : Nat) (s : RankState D) :
    HeapOnly s { s with mem := fill s.mem (heap i) n 0 } :=
  ⟨rfl, fun _ hx => fill_of_ne (hx i)⟩

theorem HeapOnly.intact (h : HeapOnly s s') (hu : t.User) (ht : Intact m t s) : Intact m t s' := by
  apply ht.of_frame fun x hx => h.mem x fun i => hu.ne_host hx i
  rw [h.aux]
  exact fun _ hc => hc

theorem InPool.heapOnly (hp : InPool m t sb s) (h : HeapOnly s s') : InPool m t sb s' := by
  constructor
  · rw [h.aux]
    exact hp.eq
  · intro j hj
    rw [h.aux, h.mem _ fun i => Buf.noConfusion]
    exact hp.bytes j hj

theorem InPool.staged (hprivate : t.shared = false) (h : Intact m t s) :
    InPool m t ⟨stagedAt t s, t.nbytes⟩ (staged t s) := by
  have hstate : Mccl.staged t s = blitted (s.aux.host.pool.ensure t.nbytes).ptr t.addr t.nbytes
      (setPool s (s.aux.host.pool.ensure t.nbytes)) := by simp [Mccl.staged, hprivate]
  have hat : stagedAt t s = (s.aux.host.pool.ensure t.nbytes).ptr := by simp [stagedAt, hprivate]
  rw [hstate, hat]
  constructor
  · rfl
  · intro j hj
    have hmem : (t.addr.1, t.addr.2 + j) ∈ t.span := mem_span.mpr ⟨rfl, by simp, by simpa using hj⟩
    calc (blitted (s.aux.host.pool.ensure t.nbytes).ptr t.addr t.nbytes
          (setPool s (s.aux.host.pool.ensure t.nbytes))).mem
            (off (s.aux.host.pool.ensure t.nbytes).ptr j)
        = (drain s).mem (t.addr.1, t.addr.2 + j) := copy_at _ _ _ hj
      _ = m (t.addr.1, t.addr.2 + j) := h.drain.bytes _ hmem

theorem InPool.unstaged (hp : InPool m t sb s) {out : Tensor} (hu : out.User)
    (hshared : out.shared = true) (src : Addr) : InPool m t sb (unstaged out src s) := by
  constructor
  · rw [unstaged_aux hshared]
    exact hp.eq
  · intro j hj
    obtain ⟨id, hid⟩ := hu
    rw [unstaged_aux hshared, unstaged_mem hshared, copy_of_ne]
    · exact hp.bytes j hj
    · show Buf.pool _ ≠ out.storage
      rw [hid]
      exact Buf.noConfusion

end pool

/-! ## Staging a list -/

/-- Where the staged bytes of the first tensors are. -/
structure Staging (world : Nat) (ins : List Tensor) (m : Addr → UInt8) (sbs : List StagingBuffer)
    (s : RankState D) : Prop where
  intact : ∀ p < world, Intact m (entry ins p) s
  in_place : ∀ p < sbs.length, (entry ins p).shared = true →
    sbs.getD p default = ⟨(entry ins p).addr, (entry ins p).nbytes⟩
  /-- The last private tensor is in the pool. -/
  in_pool : ∀ p < sbs.length, (entry ins p).shared = false →
    (∀ q, p < q → q < sbs.length → (entry ins q).shared = true) →
    InPool m (entry ins p) (sbs.getD p default) s

section staging

variable {world : Nat} {ins : List Tensor} {m : Addr → UInt8} {s : RankState D}

theorem getD_concat_self {α : Type} (l : List α) (a d : α) : (l ++ [a]).getD l.length d = a := by
  simp [List.getD_eq_getElem?_getD]

theorem getD_concat_of_lt {α : Type} {l : List α} {i : Nat} (h : i < l.length) (a d : α) :
    (l ++ [a]).getD i d = l.getD i d := by
  simp [List.getD_eq_getElem?_getD, List.getElem?_append_left h]

theorem Staging.snoc {sbs : List StagingBuffer} {s' : RankState D} (h : Staging world ins m sbs s)
    (huser : ∀ p < world, (entry ins p).User) (hlt : sbs.length < world)
    (hs' : HeapOnly (staged (entry ins sbs.length) s) s') :
    Staging world ins m
      (sbs ++ [⟨stagedAt (entry ins sbs.length) s, (entry ins sbs.length).nbytes⟩]) s' := by
  refine ⟨?_, ?_, ?_⟩
  · intro p hp
    exact hs'.intact (huser p hp) ((h.intact p hp).staged (huser p hp) _)
  · intro p hp hshared
    rw [List.length_append, List.length_singleton] at hp
    by_cases hlast : p = sbs.length
    · subst hlast
      rw [getD_concat_self, stagedAt_shared hshared]
    · rw [getD_concat_of_lt (by omega)]
      exact h.in_place p (by omega) hshared
  · intro p hp hprivate hrest
    rw [List.length_append, List.length_singleton] at hp hrest
    by_cases hlast : p = sbs.length
    · subst hlast
      rw [getD_concat_self]
      exact (InPool.staged hprivate (h.intact _ hlt)).heapOnly hs'
    · -- an earlier tensor: the new one is shared and leaves the pool alone
      have hshared := hrest sbs.length (by omega) (by omega)
      rw [staged_shared hshared] at hs'
      rw [getD_concat_of_lt (by omega)]
      exact (h.in_pool p (by omega) hprivate fun q hpq hq => hrest q hpq (by omega)).heapOnly hs'

/-- The staging loop; `A` is what the tensors are checked for. -/
theorem staging_wp {stage : Nat → RankProg D StagingBuffer} {A : Nat → Prop}
    (hstage : ∀ p s, (stage p).wp (fun sb s' =>
      (sb = ⟨stagedAt (entry ins p) s, (entry ins p).nbytes⟩ ∧ HeapOnly (staged (entry ins p) s) s') ∧
        A p) (fun _ _ => True) s)
    (huser : ∀ p < world, (entry ins p).User) (hs : ∀ p < world, Intact m (entry ins p) s) :
    ((List.range world).mapM stage).wp
      (fun sbs s' => sbs.length = world ∧ Staging world ins m sbs s' ∧ ∀ p < sbs.length, A p)
      (fun _ _ => True) s := by
  apply Proc.wp_mapM_range
  · intro p hp sbs s hlen hinv
    subst hlen
    apply Proc.wp_mono (hstage sbs.length s) _ fun _ _ h => h
    intro sb s' hsb
    refine ⟨?_, ?_⟩
    · rw [hsb.1.1]
      exact hinv.1.snoc huser hp hsb.1.2
    · intro q hq
      rw [List.length_append, List.length_singleton] at hq
      by_cases hlast : q = sbs.length
      · rw [hlast]
        exact hsb.2
      · exact hinv.2 q (by omega)
  · refine ⟨⟨hs, ?_, ?_⟩, ?_⟩ <;> exact fun _ h => absurd h (Nat.not_lt_zero _)

end staging

/-! ## What one statement returns -/

section statements

variable {t : Tensor}

theorem Tensor.Plain.ok (h : t.Plain) (hsingle : t.Single) : t.Ok where
  mps := by simpa [Tensor.is_mps] using h.mps
  contiguous := h.contiguous
  admitted := hsingle.admitted
  numel_pos := hsingle.numel_pos

theorem check_mps_returns (t : Tensor) (op : String) (s : RankState D) :
    (check_mps_ t op).wp (fun _ s' => s' = s ∧ t.Plain) (fun _ _ => True) s :=
  Proc.wp_mono (check_mps_wp t op s) (fun _ _ h => h) fun _ _ _ => trivial

theorem stage_returns_staged (h : t.Plain) (s : RankState D) :
    (stage_for_send_nosync t).wp
      (fun sb s' => sb = ⟨stagedAt t s, t.nbytes⟩ ∧ s' = staged t s) (fun _ _ => True) s := by
  by_cases hsingle : t.Single
  · have hok := h.ok hsingle
    rw [stage_for_send_nosync, check_single_tensor_eq hok, Proc.ret_bind, extract_mps_buffer_eq hok,
      Proc.ret_bind, hok.cpu_ptr_eq]
    unfold staged stagedAt
    cases t.shared <;> exact ⟨rfl, rfl⟩
  · obtain ⟨msg, hmsg⟩ := check_single_tensor_raise (D := D) hsingle
    rw [stage_for_send_nosync, hmsg]
    trivial

theorem unstage_returns_unstaged (h : t.Plain) (src : Addr) (n : Nat) (s : RankState D) :
    (unstage_from_recv t src n).wp (fun _ s' => s' = unstaged t src s) (fun _ _ => True) s := by
  by_cases hsingle : t.Single
  · have hok := h.ok hsingle
    rw [unstage_from_recv, check_single_tensor_eq hok, Proc.ret_bind, Proc.wp_bind, Proc.wp_check]
    refine ⟨fun hn => ?_, fun _ => trivial⟩
    subst hn
    rw [extract_mps_buffer_eq hok, Proc.ret_bind, hok.cpu_ptr_eq]
    unfold unstaged unstageFrom unstagePool
    cases t.shared
    · show Proc.wp _ _ (pool_source src t.nbytes >>= _) s
      rw [Proc.wp_bind, pool_source, Proc.wp_bind, Proc.wp_get]
      by_cases hsrc : src = s.aux.host.pool.ptr
      · simp only [if_pos hsrc]
        rfl
      · simp only [if_neg hsrc]
        rfl
    · rfl
  · obtain ⟨msg, hmsg⟩ := check_single_tensor_raise (D := D) hsingle
    rw [unstage_from_recv, hmsg]
    trivial

theorem vectors_returns (l : List Nat) (n : Nat → Nat) (s : RankState D) :
    (forM l fun p => vector p (n p) : RankProg D PUnit).wp (fun _ s' => HeapOnly s s')
      (fun _ _ => True) s :=
  Proc.wp_forM (fun p _ _ hs => hs.trans (HeapOnly.vector p (n p) _)) (.refl s)

end statements

/-! ## The collectives -/

section collectives

variable {rank world : Nat} {ins : List Tensor} {s : RankState D}

theorem Settled.intact {t : Tensor} (h : Settled t s) : Intact s.mem t s := ⟨fun _ _ => rfl, h⟩

/-- What the peers are sent, once the rank's own tensor has been copied to
    the output. -/
theorem Sendable.ready {out : Tensor} (h : Sendable rank world out ins s) {sbs : List StagingBuffer}
    {s₁ s₂ : RankState D} (hst : Staging world ins s.mem sbs s₁) (hlen : sbs.length = world)
    {src : Addr} (hs₂ : HeapOnly (unstaged out src s₁) s₂) {p : Nat} (hp : p < world)
    (hne : p ≠ rank) :
    (sbs.getD p default).nbytes = (entry ins p).nbytes ∧
      (∀ j < (entry ins p).nbytes,
        s₂.mem (off (sbs.getD p default).data j) = (entry ins p).byte s.mem j) ∧
      Live s₂ (sbs.getD p default).data.1 := by
  have huser := h.ins_user p hp
  cases hshared : (entry ins p).shared with
  | true =>
    have hintact : Intact s.mem (entry ins p) s₂ :=
      hs₂.intact huser ((hst.intact p hp).unstaged huser (h.apart p hp hne) src)
    rw [hst.in_place p (by omega) hshared]
    refine ⟨rfl, ?_, .inl huser⟩
    intro j hj
    apply hintact.bytes
    exact mem_span.mpr ⟨rfl, by simp [off], by simpa [off] using hj⟩
  | false =>
    obtain ⟨hout, hrest⟩ := h.staged_last p hp hne hshared
    have hpool : InPool s.mem (entry ins p) (sbs.getD p default) s₂ :=
      ((hst.in_pool p (by omega) hshared fun q hpq hq => hrest q hpq (by omega)).unstaged h.out_user
        hout src).heapOnly hs₂
    rw [hpool.eq]
    exact ⟨rfl, hpool.bytes, .inr rfl⟩

theorem reduce_scatter_stage_staged (p : Nat) (s : RankState D) :
    (reduce_scatter_stage ins p).wp (fun sb s' =>
      (sb = ⟨stagedAt (entry ins p) s, (entry ins p).nbytes⟩ ∧ HeapOnly (staged (entry ins p) s) s') ∧
        (entry ins p).Plain) (fun _ _ => True) s := by
  apply Proc.wp_then (check_mps_returns _ _ s) _ fun _ _ h => h
  intro _ s' hs'
  obtain ⟨rfl, hplain⟩ := hs'
  apply Proc.wp_mono (stage_returns_staged hplain s') _ fun _ _ h => h
  intro sb s'' hsb
  exact ⟨⟨hsb.1, hsb.2 ▸ .refl _⟩, hplain⟩

theorem alltoall_stage_staged (outs : List Tensor) (p : Nat) (s : RankState D) :
    (alltoall_stage rank outs ins p).wp (fun sb s' =>
      (sb = ⟨stagedAt (entry ins p) s, (entry ins p).nbytes⟩ ∧ HeapOnly (staged (entry ins p) s) s') ∧
        (entry outs p).Plain) (fun _ _ => True) s := by
  apply Proc.wp_then (check_mps_returns _ _ s) _ fun _ _ h => h
  intro _ s' hs'
  obtain ⟨rfl, hplain⟩ := hs'
  apply Proc.wp_then (check_mps_returns _ _ s') _ fun _ _ h => h
  intro _ s'' hs''
  obtain ⟨rfl, hout⟩ := hs''
  apply Proc.wp_then (stage_returns_staged hplain s'') _ fun _ _ h => h
  intro sb s₁ hsb
  obtain ⟨hsb, rfl⟩ := hsb
  split
  · exact ⟨⟨hsb, .refl _⟩, hout⟩
  · exact ⟨⟨hsb, HeapOnly.vector p _ _⟩, hout⟩

theorem reduce_scatter_one_sends {out : Tensor} (h : Sendable rank world out ins s)
    (hsize : ∀ p < world, p ≠ rank → (entry ins p).nbytes = out.nbytes) (op : RedOpType) (i : Nat) :
    (reduce_scatter_one rank world op i out ins : RankProg D Unit).Forks
      (SendsOwn rank world ins s.mem) s := by
  unfold reduce_scatter_one
  apply Proc.Forks.check_then
  intro _
  apply Proc.Straight.forks_then (check_mps_straight _ _) (check_mps_returns out _ s)
  intro _ s' hs'
  obtain ⟨rfl, hplain⟩ := hs'
  apply Proc.Straight.forks_then (.mapM fun p _ => .bind (check_mps_straight _ _) fun _ => stage_straight _)
    (staging_wp reduce_scatter_stage_staged h.ins_user fun p hp => (h.settled p hp).intact)
  intro sbs s₁ hsbs
  obtain ⟨hlen, hst, -⟩ := hsbs
  apply Proc.Forks.check_then
  intro hchunk
  apply Proc.Straight.forks_then (unstage_straight _ _ _) (unstage_returns_unstaged hplain _ _ s₁)
  intro _ s₂ hs₂
  apply Proc.Straight.forks_then (.forM fun _ _ => .modify _) (vectors_returns _ _ s₂)
  intro _ s₃ hs₃
  rw [hs₂] at hs₃
  apply Proc.Forks.fork_then
  · refine ⟨fun p => (sbs.getD p default).data, fun _ => (sbs.getD 0 default).nbytes, ?_, ?_⟩
    · apply List.map_congr_left
      intro p hp
      obtain ⟨hp, hne⟩ := mem_peers.mp hp
      rw [hsize p hp hne, hchunk]
    · intro p hp
      obtain ⟨hp, hne⟩ := mem_peers.mp hp
      exact (h.ready hst hlen hs₃ hp hne).2
  · intro s'
    exact (reduce_peers_straight _ _ _ _ _ _).forks _ _

theorem alltoall_sends {outs : List Tensor} (hrank : rank < world)
    (h : Sendable rank world (entry outs rank) ins s) :
    (alltoall_body rank world outs ins : RankProg D Unit).Forks (SendsOwn rank world ins s.mem) s := by
  unfold alltoall_body
  apply Proc.Straight.forks_then (.mapM fun p _ => alltoall_stage_straight rank outs _ p)
    (staging_wp (alltoall_stage_staged outs) h.ins_user fun p hp => (h.settled p hp).intact)
  intro sbs s₁ hsbs
  obtain ⟨hlen, hst, hplain⟩ := hsbs
  apply Proc.Straight.forks_then (unstage_straight _ _ _)
    (unstage_returns_unstaged (hplain rank (by omega)) _ _ s₁)
  intro _ s₂ hs₂
  have hheap : HeapOnly (unstaged (entry outs rank) (sbs.getD rank default).data s₁) s₂ := hs₂ ▸ .refl _
  apply Proc.Forks.fork_then
  · refine ⟨fun p => (sbs.getD p default).data, fun p => (entry outs p).nbytes, ?_, ?_⟩
    · apply List.map_congr_left
      intro p hp
      obtain ⟨hp, hne⟩ := mem_peers.mp hp
      rw [(h.ready hst hlen hheap hp hne).1]
    · intro p hp
      obtain ⟨hp, hne⟩ := mem_peers.mp hp
      exact (h.ready hst hlen hheap hp hne).2
  · intro s'
    exact (Proc.Straight.forM fun _ _ => unstage_straight _ _ _).forks _ _

end collectives

/-- Four bytes in private storage. -/
def privateTensor (id : Nat) : Tensor := { userTensor .Byte id 4 with shared := false }

/-- The bytes of the user's buffer `id` are `id`. -/
def numberedState : RankState byteDevice :=
  { freshState 0 with
    mem := fun a => match a.1 with
      | .mtl id => UInt8.ofNat id
      | _ => 0 }

end Mccl
