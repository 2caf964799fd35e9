import Mccl.Backend.EngineOps

/-! # Inline Calls next to the Engines

    `ProcessGroupMCCL::allreduce` runs on the calling thread, the other
    collectives on the engine, and both use the same sockets.

    * `allreduce_body_triple`: an allreduce of all ranks.
    * `Collective`: a collective with the arguments of every rank.
    * **Main result** (`collectives_matched`): if no allreduce is started on a
      rank whose engine is busy, every byte is received by the collective that it
      was sent for.
    * `allreduce_overtakes`: otherwise an allreduce can feed its bytes to a
      broadcast. -/

namespace Mccl

open ForkJoin Arrays

variable {D : Device UInt8} {cap : ℕ∞} {w : Nat}

/-! ## Plans -/

/-- Where `to_bf16` puts the converted tensor. -/
def bf16Of (t : Tensor) (i : Nat) : Tensor :=
  { empty_like t i with dtype := .BFloat16, storage := .scratch (2 * i) }

/-- The tensor that is reduced for `t`. -/
def wireOf (env : AllreduceEnv) (t : Tensor) (i : Nat) : Tensor :=
  if env.wire_bf16 ∧ t.dtype = .Float then bf16Of t i else t

section plans
variable (env : AllreduceEnv) {t : Tensor} (i : Nat)

theorem wireOf_ok (h : t.Ok) : (wireOf env t i).Ok := by
  unfold wireOf
  split
  · exact ⟨h.mps, rfl, rfl, h.numel_pos⟩
  · exact h

theorem wireOf_numel (t : Tensor) : (wireOf env t i).numel = t.numel := by
  unfold wireOf
  split <;> rfl

theorem wireOf_shared (t : Tensor) : (wireOf env t i).shared = t.shared := by
  unfold wireOf
  split <;> rfl

theorem wireOf_dtype {t u : Tensor} (h : t.dtype = u.dtype) :
    (wireOf env t i).dtype = (wireOf env u i).dtype := by
  unfold wireOf
  rw [h]
  split
  · rfl
  · exact h

/-- The conversion, if there is one. -/
def wireStep (env : AllreduceEnv) (t : Tensor) (i : Nat) : RankProg D Unit :=
  if env.wire_bf16 ∧ t.dtype = .Float then
    .modify fun s =>
      let v (j : Nat) := D.roundBF16 (elem (D.codec .f32) s.mem t.addr j)
      { s with mem := store (D.codec .bf16) s.mem (bf16Of t i).addr t.numel v }
  else .ret ()

theorem wire_tensor_eq (t : Tensor) :
    (wire_tensor env t i : RankProg D Tensor) = wireStep env t i >>= fun _ => .ret (wireOf env t i) := by
  unfold wire_tensor wireStep wireOf
  split
  · rfl
  · rfl

theorem wireStep_raceFree (t : Tensor) : (wireStep env t i : RankProg D Unit).RaceFree := by
  unfold wireStep
  split
  · exact .modify _
  · trivial

theorem wireStep_computes (t : Tensor) (s : RankState D) :
    ∃ m, Computes (wireStep env t i) s { s with mem := m } () := by
  unfold wireStep
  split
  · exact ⟨_, Computes.modify _ s⟩
  · exact ⟨s.mem, Computes.ret _ _⟩

theorem scratch_numel_pos {numel : Nat} (hn : 0 < numel) (hw : 2 ≤ w) (alg : AllreduceAlgo) :
    0 < scratch_numel numel w alg := by
  have hper := AllreduceGroup.per_chunk_pos (by omega : 0 < w) hn
  cases alg with
  | ring => exact hper
  | tree => exact hn
  | butterfly => exact Nat.mul_pos (by omega) hper

theorem recv_scratch_ok (h : t.Ok) {n : Nat} (hn : 0 < n) : (recv_scratch t i n).Ok :=
  ⟨h.mps, rfl, h.admitted, by simpa [recv_scratch, Tensor.numel] using hn⟩

/-- What is prepared for a tensor. -/
def planOf (env : AllreduceEnv) (w : Nat) (t : Tensor) (i : Nat) : AllreducePlan :=
  plan env w (wireOf env t i) i

theorem allreduce_prepare_eq (h : t.Ok) (hw : 2 ≤ w) :
    (allreduce_prepare env w t i : RankProg D AllreducePlan) =
      wireStep env t i >>= fun _ => .ret (planOf env w t i) := by
  have hok := wireOf_ok env i h
  rw [allreduce_prepare, check_mps_eq h, Proc.ret_bind, wire_tensor_eq, Proc.bind_assoc]
  congr 1
  funext _
  rw [Proc.ret_bind, check_single_tensor_eq hok, Proc.ret_bind, check_single_tensor_eq
    (recv_scratch_ok i hok (scratch_numel_pos hok.numel_pos hw _)), Proc.ret_bind]
  rfl

end plans

/-- A loop whose values are known beforehand. -/
theorem mapM_eq_forM {α γ : Type} {l : List α} {g : α → RankProg D γ} {step : α → RankProg D Unit}
    {v : α → γ} (h : ∀ a ∈ l, g a = step a >>= fun _ => .ret (v a)) :
    l.mapM g = forM l step >>= fun _ => .ret (l.map v) := by
  induction l with
  | nil => rfl
  | cons a l ih =>
    rw [List.mapM_cons, List.forM_cons, h a (by simp), ih fun b hb => h b (by simp [hb])]
    simp only [Proc.bind_assoc, Proc.ret_bind, List.map_cons]
    rfl

/-- A loop in which every iteration touches nothing but the memory. -/
theorem forM_computes {α : Type} {l : List α} {g : α → RankProg D PUnit}
    (h : ∀ a ∈ l, ∀ s, ∃ m, Computes (g a) s { s with mem := m } ()) (s : RankState D) :
    ∃ m, Computes (forM l g) s { s with mem := m } () := by
  induction l generalizing s with
  | nil => exact ⟨s.mem, Computes.ret _ _⟩
  | cons a l ih =>
    obtain ⟨m, hm⟩ := h a (by simp) s
    obtain ⟨m', hm'⟩ := ih (fun b hb => h b (by simp [hb])) { s with mem := m }
    refine ⟨m', ?_⟩
    rw [List.forM_cons]
    exact hm.bind hm'

theorem copy_back_raceFree (t wt : Tensor) : (copy_back t wt : RankProg D Unit).RaceFree := by
  unfold copy_back
  split
  · exact .modify _
  · trivial

theorem copy_back_computes (t wt : Tensor) (s : RankState D) :
    ∃ m, Computes (copy_back t wt) s { s with mem := m } () := by
  unfold copy_back
  split
  · exact ⟨_, Computes.modify _ s⟩
  · exact ⟨s.mem, Computes.ret _ _⟩

/-! ## Allreduce -/

/-- The arguments of the ranks fit together, and every tensor is accepted. -/
structure AllreduceOk (w : Nat) (tensors : Nat → List Tensor) : Prop where
  length_pos : ∀ r < w, tensors r ≠ []
  length_eq : ∀ r < w, (tensors r).length = (tensors 0).length
  ok : ∀ r < w, ∀ t ∈ tensors r, t.Ok
  shared : ∀ r < w, ∀ t ∈ tensors r, t.shared = true
  dtype_eq : ∀ r < w, ∀ i < (tensors 0).length,
    (entry (tensors r) i).dtype = (entry (tensors 0) i).dtype
  numel_eq : ∀ r < w, ∀ i < (tensors 0).length,
    (entry (tensors r) i).numel = (entry (tensors 0) i).numel
  numel_lt : ∀ t ∈ tensors 0, t.numel < 2 ^ 32

section allreduce
variable (env : AllreduceEnv) (op : RedOpType) {tensors : Nat → List Tensor} {st : Nat → RankState D}

theorem AllreduceOk.entry_mem (h : AllreduceOk w tensors) {r i : Nat} (hr : r < w)
    (hi : i < (tensors 0).length) : entry (tensors r) i ∈ tensors r :=
  Mccl.entry_mem (by rwa [h.length_eq r hr])

theorem view_accessible {t : Tensor} (h : t.shared = true) : t.view.cpu_accessible = true := by
  simp [Tensor.view, h]

section group
variable (h : AllreduceOk w tensors) {r i : Nat} (hr : r < w) (hi : i < (tensors 0).length)

include h hr hi in
theorem AllreduceOk.wire_shared : (wireOf env (entry (tensors r) i) i).shared = true :=
  (wireOf_shared env i _).trans (h.shared r hr _ (h.entry_mem hr hi))

include h hr hi in
theorem AllreduceOk.wire_numel :
    (wireOf env (entry (tensors r) i) i).numel = (entry (tensors 0) i).numel :=
  (wireOf_numel env i _).trans (h.numel_eq r hr i hi)

include h hr hi in
theorem AllreduceOk.args_numel :
    (planOf env w (entry (tensors r) i) i).args.numel = (entry (tensors 0) i).numel := by
  show (wireOf env (entry (tensors r) i) i).numel % 2 ^ 32 = _
  rw [h.wire_numel env hr hi]
  exact Nat.mod_eq_of_lt (h.numel_lt _ (Mccl.entry_mem hi))

/-- The arguments of all ranks for tensor `i`. -/
def allreduceGroup : AllreduceGroup where
  world := w
  op := op
  dtype := (wireOf env (entry (tensors 0) i) i).dtype
  numel := (entry (tensors 0) i).numel
  args := fun r => (planOf env w (entry (tensors r) i) i).args
  dtype_eq := fun r hr => wireOf_dtype env i (h.dtype_eq r hr i hi)
  numel_eq := fun _ hr => h.args_numel env hr hi
  t_shared := fun _ hr => view_accessible (h.wire_shared env hr hi)
  recv_shared := fun _ hr => view_accessible (h.wire_shared env hr hi)

/-- The algorithm that all ranks choose for tensor `i`. -/
def algoOf (env : AllreduceEnv) (w : Nat) (tensors : Nat → List Tensor) (i : Nat) : AllreduceAlgo :=
  (planOf env w (entry (tensors 0) i) i).alg

include h hr hi in
theorem AllreduceOk.alg_eq : (planOf env w (entry (tensors r) i) i).alg = algoOf env w tensors i := by
  have hw : 0 < w := by omega
  have hnum := (h.wire_numel env hr hi).trans (h.wire_numel env hw hi).symm
  have hbytes : (wireOf env (entry (tensors r) i) i).nbytes =
      (wireOf env (entry (tensors 0) i) i).nbytes := by
    unfold Tensor.nbytes Tensor.element_size
    rw [hnum, wireOf_dtype env i (h.dtype_eq r hr i hi)]
  show allreduce_algo _ _ _ _ _ = allreduce_algo _ _ _ _ _
  rw [hbytes, hnum]

include h hr hi in
theorem AllreduceOk.scratch_nbytes :
    (planOf env w (entry (tensors r) i) i).args.recv_view.nbytes =
      scratch_numel (entry (tensors 0) i).numel w (algoOf env w tensors i) *
        (wireOf env (entry (tensors 0) i) i).dtype.elementSize := by
  have halg : (plan env w (wireOf env (entry (tensors r) i) i) i).alg = algoOf env w tensors i :=
    h.alg_eq env hr hi
  rw [planOf, plan_scratch_nbytes, halg, h.wire_numel env hr hi, wireOf_dtype env i (h.dtype_eq r hr i hi)]

theorem allreduceGroup_admits : (algoOf env w tensors i).Admits (allreduceGroup env op h hi) := by
  have halg : algoOf env w tensors i = allreduce_algo env.algo env.tree_below
      (wireOf env (entry (tensors 0) i) i).nbytes (entry (tensors 0) i).numel w := by
    rw [← wireOf_numel env i]
    rfl
  have hadm := allreduce_algo_admits (allreduceGroup env op h hi) env.algo env.tree_below
    (wireOf env (entry (tensors 0) i) i).nbytes fun r hr => by
      show _ = scratch_numel _ w (allreduce_algo _ _ _ (entry (tensors 0) i).numel w) * _
      rw [← halg]
      exact h.scratch_nbytes env hr hi
  rw [halg]
  exact hadm

end group

/-- The device is idle and has its kernels. -/
abbrev IdleAgain (s s' : RankState D) : Prop :=
  s'.aux.metal.cache = s.aux.metal.cache ∧ s'.aux.metal.Idle

/-- Nothing but the memory has changed, and the device is idle. -/
def Rests (w : Nat) (st st' : Nat → RankState D) : Prop :=
  ∀ r < w, Steady (st r) (st' r) ∧ (st' r).aux.metal.Idle

theorem Rests.trans {st st' st'' : Nat → RankState D} (h : Rests w st st') (h' : Rests w st' st'') :
    Rests w st st'' :=
  fun r hr => ⟨(h r hr).1.trans (h' r hr).1, (h' r hr).2⟩

/-- The kernels for tensor `i` are there on all ranks. -/
def AllreduceRuns (env : AllreduceEnv) (op : RedOpType) (w : Nat) (tensors : Nat → List Tensor)
    (c : Nat → KernelCache) : Prop :=
  ∀ i < (tensors 0).length, ∃ f k, ∀ r < w,
    (c r).Supports (wireOf env (entry (tensors 0) i) i).dtype op f k

theorem AllreduceRuns.congr {c c' : Nat → KernelCache} (h : AllreduceRuns env op w tensors c)
    (hc : ∀ r < w, c' r = c r) : AllreduceRuns env op w tensors c' := by
  intro i hi
  obtain ⟨f, k, hsup⟩ := h i hi
  exact ⟨f, k, fun r hr => (hc r hr).symm ▸ hsup r hr⟩

theorem allreduce_tensor_triple (hcap : 0 < cap) (hw : 2 ≤ w) (h : AllreduceOk w tensors)
    (hidle : ∀ r < w, (st r).aux.metal.Idle) (htag : SameTag w st)
    (hruns : AllreduceRuns env op w tensors fun r => (st r).aux.metal.cache) {i : Nat}
    (hi : i < (tensors 0).length) :
    Triple cap (List.range w) (· = st) (fun r => (planOf env w (entry (tensors r) i) i).alg.run
      (planOf env w (entry (tensors r) i) i).args op r w) (Rests w st) := by
  obtain ⟨f, k, hsup⟩ := hruns i hi
  have hready : (allreduceGroup env op h hi).Ready f k st := ⟨hidle, hsup, htag⟩
  obtain ⟨y, htriple⟩ := AllreduceGroup.allreduce_triple (k := k) (ω := Host) (algoOf env w tensors i) hcap
    hw (allreduceGroup_admits env op h hi) ((allreduceGroup env op h hi).tensor f st)
  have hrun : Triple cap (List.range w) (· = st) (fun r => (algoOf env w tensors i).run
      (planOf env w (entry (tensors r) i) i).args op r w) fun st' => ∀ r < w, (st' r).aux.metal.Idle := by
    refine htriple.conseq ?_ fun st' hst' => hst'.ready.idle
    rintro _ rfl
    exact ⟨hready, fun _ _ _ _ => rfl⟩
  refine ((hrun.keeps steady_blind fun r _ => AllreduceAlgo.run_keeps _ _ _ _ _).conseq (fun _ h => h)
    fun st' hst' r hr => ⟨hst'.2 r (List.mem_range.mpr hr), hst'.1 r hr⟩).congr fun r hr => ?_
  rw [h.alg_eq env (List.mem_range.mp hr) hi]

theorem allreduce_body_eq (hw : 2 ≤ w) (h : AllreduceOk w tensors) {r : Nat} (hr : r < w) :
    (allreduce_body env r w op (tensors r) : RankProg D Unit) =
      forM (List.range (tensors 0).length) (fun i => wireStep env (entry (tensors r) i) i) >>= fun _ =>
      forM (List.range (tensors 0).length) (fun i => (planOf env w (entry (tensors r) i) i).alg.run
        (planOf env w (entry (tensors r) i) i).args op r w) >>= fun _ =>
      mccl_queue_drain >>= fun _ =>
      forM ((tensors r).zip ((List.range (tensors 0).length).map fun i =>
        planOf env w (entry (tensors r) i) i)) fun x => copy_back x.1 x.2.wt := by
  rw [allreduce_body, h.length_eq r hr, mapM_eq_forM (v := fun i => planOf env w (entry (tensors r) i) i)
    fun i hi => allreduce_prepare_eq env i (h.ok r hr _ (h.entry_mem hr (List.mem_range.mp hi))) hw]
  simp only [Proc.bind_assoc, Proc.ret_bind, List.forM_map]

/-- Local computations that touch nothing but the memory. -/
theorem Rests.memory_triple {st₀ : Nat → RankState D} (hst : Rests w st₀ st) {p : Nat → RankProg D Unit}
    (hrf : ∀ r < w, (p r).RaceFree)
    (hp : ∀ r < w, ∀ s, ∃ m, Computes (p r) s { s with mem := m } ()) :
    Triple cap (List.range w) (· = st) p (Rests w st₀) := by
  refine .ranks (K := fun r s => Steady (st₀ r) s ∧ s.aux.metal.Idle) hrf ?_
  rintro st rfl r hr
  obtain ⟨m, hm⟩ := hp r hr (st r)
  exact ⟨_, hm, (hst r hr).1.trans (steady_blind.mem _ _), (hst r hr).2⟩

theorem Rests.drain_triple {st₀ : Nat → RankState D} (hst : Rests w st₀ st) :
    Triple cap (List.range w) (· = st) (fun _ => mccl_queue_drain) (Rests w st₀) := by
  refine .ranks (K := fun r s => Steady (st₀ r) s ∧ s.aux.metal.Idle) (fun _ _ => .modify _) ?_
  rintro st rfl r hr
  exact ⟨_, Computes.modify _ _, (hst r hr).1.trans ⟨rfl, rfl, rfl⟩, (hst r hr).2.batch, rfl⟩

theorem allreduce_body_triple (hcap : 0 < cap) (hw : 2 ≤ w) (h : AllreduceOk w tensors)
    (hidle : ∀ r < w, (st r).aux.metal.Idle) (htag : SameTag w st)
    (hruns : AllreduceRuns env op w tensors fun r => (st r).aux.metal.cache) :
    Triple cap (List.range w) (· = st) (fun r => allreduce_body env r w op (tensors r)) (Rests w st) := by
  have hst : Rests w st st := fun r hr => ⟨.refl _, hidle r hr⟩
  -- Every tensor finds the devices as the first one did.
  have hrun : ∀ st₁, Rests w st st₁ → Triple cap (List.range w) (· = st₁)
      (fun r => forM (List.range (tensors 0).length) fun i =>
        (planOf env w (entry (tensors r) i) i).alg.run (planOf env w (entry (tensors r) i) i).args op r w)
      (Rests w st) := by
    intro st₁ hst₁
    refine .loop (fun _ => Rests w st) hst₁ fun i hi st₂ hst₂ => ?_
    refine (allreduce_tensor_triple env op hcap hw h (fun r hr => (hst₂ r hr).2) (fun r hr q hq => ?_)
      (hruns.congr _ _ fun r hr => (hst₂ r hr).1.cache) hi).conseq (fun _ h => h)
      fun st' hst' => hst₂.trans hst'
    rw [(hst₂ r hr).1.tag, (hst₂ q hq).1.tag, htag r hr q hq]
  have hwire : Triple cap (List.range w) (· = st) (fun r => forM (List.range (tensors 0).length) fun i =>
      wireStep env (entry (tensors r) i) i) (Rests w st) :=
    hst.memory_triple (fun r _ => .forM fun i _ => wireStep_raceFree env i _)
      fun r _ => forM_computes fun i _ => wireStep_computes env i _
  have hback : ∀ st₁, Rests w st st₁ → Triple cap (List.range w) (· = st₁)
      (fun r => forM ((tensors r).zip ((List.range (tensors 0).length).map fun i =>
        planOf env w (entry (tensors r) i) i)) fun x => copy_back x.1 x.2.wt) (Rests w st) :=
    fun st₁ hst₁ => hst₁.memory_triple (fun r _ => .forM fun x _ => copy_back_raceFree _ _)
      fun r _ => forM_computes fun x _ => copy_back_computes _ _
  refine (hwire.andThen fun st₁ hst₁ => (hrun st₁ hst₁).andThen fun st₂ hst₂ =>
    hst₂.drain_triple.andThen hback).congr fun r hr => ?_
  rw [allreduce_body_eq env op hw h (List.mem_range.mp hr)]

/-- An allreduce of all ranks, with its work. -/
theorem allreduce_triple (hw : 2 ≤ w) (h : AllreduceOk w tensors)
    (hidle : ∀ r < w, (st r).aux.metal.Idle)
    (hruns : AllreduceRuns env op w tensors fun r => (st r).aux.metal.cache) (k : Nat) :
    Triple ⊤ (List.range w) (· = st)
      (fun r => inTurn [(k, ProcessGroupMCCL.allreduce ⟨r, w⟩ env op (tensors r))]) fun st' =>
      ∀ r < w, IdleAgain (st r) (st' r) := by
  let st₀ : Nat → RankState D := Triple.begun (List.range w) k st
  have haux : ∀ r, (st₀ r).aux = (st r).aux := EngineOp.begun_aux _ k st
  have htag : ∀ r < w, (st₀ r).tag = k := fun r hr => by simp [st₀, Triple.begun, hr, setTag]
  have hbody : Triple ⊤ (List.range w) (· = st₀) (fun r => allreduce_body env r w op (tensors r))
      (Rests w st₀) :=
    allreduce_body_triple env op ENat.top_pos hw h (fun r hr => (haux r).symm ▸ hidle r hr)
      (fun r hr q hq => (htag r hr).trans (htag q hq).symm) (by simpa only [haux] using hruns)
  have hfinish : Triple ⊤ (List.range w) (Rests w st₀) (fun _ => make_completed) fun st' =>
      ∀ r < w, IdleAgain (st r) (st' r) := by
    refine .ranks (K := fun r => IdleAgain (st r)) (fun _ _ => .modify _) fun st₁ hst₁ r hr =>
      ⟨_, Computes.modify _ _, ?_, (hst₁ r hr).2⟩
    exact (hst₁ r hr).1.cache.trans (by rw [haux])
  refine (Triple.call k (hbody.seq hfinish)).congr fun r hr => ?_
  have hw' : w ≠ 1 := by omega
  rw [inTurn, List.map_singleton, ProcessGroupMCCL.allreduce, if_neg hw', Call.prog,
    Proc.check_pos (h.length_pos r (List.mem_range.mp hr))]
  rfl

end allreduce

/-! ## Collectives -/

/-- A collective with the arguments of every rank. -/
inductive Collective where
  | engine (o : EngineOp)
  | allreduce (env : AllreduceEnv) (op : RedOpType) (tensors : Nat → List Tensor)
  | barrier (rendezvous_ : Nat → Option (Except String Unit))

namespace Collective

/-- The calls that rank `r` makes for a collective with number `k`. -/
def callAt (w k r : Nat) : Collective → List (Nat × RankCall D)
  | engine o => o.callAt w k r
  | allreduce env op tensors =>
    if r < w then [(k, ProcessGroupMCCL.allreduce ⟨r, w⟩ env op (tensors r))] else []
  | barrier rendezvous_ => if r < w then [(k, ProcessGroupMCCL.barrier ⟨r, w⟩ (rendezvous_ r))] else []

/-- The arguments of the `w` ranks fit together. -/
def Valid (w : Nat) : Collective → Prop
  | engine o => o.Valid w
  | allreduce _ _ tensors => AllreduceOk w tensors
  | barrier _ => True

/-- Devices with the kernels `c r` on the ranks `r` can do it. -/
def Supported (w : Nat) (c : Nat → KernelCache) : Collective → Prop
  | engine o => ∀ r < w, o.Supported (c r) r
  | allreduce env op tensors => AllreduceRuns env op w tensors c
  | barrier _ => True

/-- The calls of rank `r` for a list of collectives, the first of which has
    number `k`. -/
def calls (w r : Nat) : (k : Nat) → List Collective → List (Nat × RankCall D)
  | _, [] => []
  | k, o :: ops => o.callAt w k r ++ calls w r (k + 1) ops

variable {o : Collective} {ops : List Collective} {st : Nat → RankState D}

theorem barrier_eq (w r : Nat) (rendezvous_ : Option (Except String Unit)) :
    ∃ error, guarded (ProcessGroupMCCL.barrier ⟨r, w⟩ rendezvous_ : RankCall D).prog =
      .modify (completed error) := by
  unfold ProcessGroupMCCL.barrier
  split
  · exact ⟨none, rfl⟩
  · split
    · exact ⟨none, rfl⟩
    · exact ⟨none, rfl⟩
    · exact ⟨_, rfl⟩

theorem triple (hw : 2 ≤ w) (hv : o.Valid w) (hidle : ∀ r < w, (st r).aux.metal.Idle)
    (hsup : o.Supported w fun r => (st r).aux.metal.cache) (k : Nat) :
    Triple ⊤ (List.range w) (· = st) (fun r => inTurn (o.callAt w k r)) fun st' =>
      ∀ r < w, IdleAgain (st r) (st' r) := by
  cases o with
  | engine o =>
    exact (o.triple hv hw k hidle hsup).conseq (fun _ h => h)
      fun st' hst' r hr => ⟨(hst' r hr).cache, (hst' r hr).idle⟩
  | allreduce env op tensors =>
    refine (allreduce_triple env op hw hv hidle hsup k).congr fun r hr => ?_
    rw [callAt, if_pos (List.mem_range.mp hr)]
  | barrier rendezvous_ =>
    -- Every rank completes its work by itself.
    choose error herror using fun r => barrier_eq (D := D) w r (rendezvous_ r)
    have hbarrier : Triple ⊤ (List.range w) (· = st)
        (fun r => .modify (setTag k) >>= fun _ => .modify (completed (error r))) fun st' =>
        ∀ r < w, IdleAgain (st r) (st' r) := by
      refine .ranks (K := fun r => IdleAgain (st r))
        (fun _ _ => .bind (.modify _) fun _ => .modify _) ?_
      rintro st rfl r hr
      exact ⟨_, (Computes.modify _ _).bind (Computes.modify _ _), rfl, hidle r hr⟩
    refine hbarrier.congr fun r hr => ?_
    rw [callAt, if_pos (List.mem_range.mp hr), inTurn, List.map_singleton, inOrder, herror]
    rfl

theorem Supported.congr {c c' : Nat → KernelCache} (h : o.Supported w c) (hc : ∀ r < w, c' r = c r) :
    o.Supported w c' := by
  cases o with
  | engine o => exact fun r hr => (hc r hr).symm ▸ h r hr
  | allreduce env op tensors => exact AllreduceRuns.congr env op h hc
  | barrier => trivial

theorem calls_eq_nil (hv : ∀ o ∈ ops, o.Valid w) {r : Nat} (hr : r ∉ List.range w) (k : Nat) :
    (calls w r k ops : List (Nat × RankCall D)) = [] := by
  induction ops generalizing k with
  | nil => rfl
  | cons o ops ih =>
    have hr' : ¬ r < w := by simpa using hr
    have hfirst : (o.callAt w k r : List (Nat × RankCall D)) = [] := by
      cases o with
      | engine o =>
        exact if_neg fun h => hr (List.mem_range.mpr (EngineOp.parties_lt (hv (.engine o) (by simp)) h))
      | allreduce => exact if_neg hr'
      | barrier => exact if_neg hr'
    rw [calls, hfirst, ih fun o' ho' => hv o' (by simp [ho'])]
    rfl

theorem callAt_straight (hv : o.Valid 1) (k r : Nat) {c : Nat × RankCall D}
    (hc : c ∈ o.callAt 1 k r) : c.2.prog.Straight := by
  have hone : ∀ {p : Prop} [Decidable p] {call : RankCall D}, c ∈ (if p then [(k, call)] else []) →
      c.2 = call := by
    intro p _ call hmem
    split at hmem
    · exact congrArg Prod.snd (List.mem_singleton.mp hmem)
    · cases hmem
  have hcompleted : (make_completed : RankProg D Unit).Straight := .modify _
  cases o with
  | engine o =>
    rw [hone hc]
    cases o with
    | exchange e => exact e.call_straight r
    | broadcast root tensors => exact hcompleted
    | message src dst send_tag recv_tag sent received =>
      have hv : MessageOk 1 src dst send_tag recv_tag sent received := hv
      have hsrc := hv.src_lt
      have hdst := hv.dst_lt
      exact absurd (by omega) hv.ne
  | allreduce env op tensors =>
    rw [hone hc]
    exact hcompleted
  | barrier rendezvous_ =>
    rw [hone hc]
    exact hcompleted

theorem calls_straight (hv : ∀ o ∈ ops, o.Valid 1) (r k : Nat) :
    ∀ c ∈ (calls 1 r k ops : List (Nat × RankCall D)), c.2.prog.Straight := by
  induction ops generalizing k with
  | nil => simp [calls]
  | cons o ops ih =>
    intro c hc
    rcases List.mem_append.mp hc with hc | hc
    · exact callAt_straight (hv o (by simp)) k r hc
    · exact ih (fun o' ho' => hv o' (by simp [ho'])) (k + 1) c hc

theorem calls_triple (hv : ∀ o ∈ ops, o.Valid w) (hidle : ∀ r < w, (st r).aux.metal.Idle)
    (hsup : ∀ o ∈ ops, o.Supported w fun r => (st r).aux.metal.cache) (k : Nat) :
    Triple ⊤ (List.range w) (· = st) (fun r => inTurn (calls w r k ops)) fun _ => True := by
  by_cases hw : 2 ≤ w
  · induction ops generalizing st k with
    | nil => exact (Triple.skip _ _).conseq (fun _ h => h) fun _ _ => trivial
    | cons o ops ih =>
      have hfirst := triple hw (hv o (by simp)) hidle (hsup o (by simp)) k
      refine (hfirst.andThen (q := fun r => inTurn (calls w r (k + 1) ops)) fun st₁ hst₁ => ?_).congr
        fun r _ => inTurn_append _ _
      refine ih (fun o' ho' => hv o' (by simp [ho'])) (fun r hr => (hst₁ r hr).2)
        (fun o' ho' => (hsup o' (by simp [ho'])).congr fun r hr => (hst₁ r hr).1) (k + 1)
  · refine .straight (fun r hr => ?_) fun r _ => inOrder_returns _
    refine inOrder_straight fun x hx => ?_
    obtain ⟨c, hc, rfl⟩ := List.mem_map.mp hx
    obtain rfl : w = 1 := by
      have := List.mem_range.mp hr
      omega
    exact calls_straight hv r k c hc

end Collective

/-- **Separate streams.** If no allreduce is started on a rank whose engine is
    busy, every byte is received by the collective that it was sent for. -/
theorem collectives_matched {ops : List Collective} (hv : ∀ o ∈ ops, o.Valid w)
    {st : Nat → RankState D} (hidle : ∀ r < w, (st r).aux.metal.Idle)
    (hsup : ∀ o ∈ ops, o.Supported w fun r => (st r).aux.metal.cache)
    {g : Group Nat Addr UInt8 (Local D Host)}
    (hg : Group.ReachesWaiting cap (Group.init st fun r => Collective.calls w r 0 ops) g) : g.matched :=
  (Collective.calls_triple hv hidle hsup 0).matched (fun _ hr => Collective.calls_eq_nil hv hr 0) hg

/-! ### Two ranks -/

/-- A broadcast from rank 1, then an allreduce. -/
def twoStreams : List Collective :=
  [.engine (.broadcast 1 fun _ => [userTensor .Float 0 1]),
    .allreduce ⟨false, none, 262144⟩ .SUM fun _ => [userTensor .Float 1 1]]

theorem twoStreams_valid : ∀ o ∈ twoStreams, o.Valid 2 := by
  have hlen : ∀ {i : Nat}, i < 1 → i = 0 := fun h => by omega
  have hvalid (id : Nat) : (userTensor .Float id 1).Valid := userTensor_valid .Float rfl id Nat.one_pos
  simp only [twoStreams, List.mem_cons, List.not_mem_nil, or_false, forall_eq_or_imp, forall_eq]
  refine ⟨⟨by decide, by simp, fun _ _ => rfl, ?_, fun _ _ _ _ => rfl, ?_⟩,
    ⟨by simp, fun _ _ => rfl, ?_, by simp [userTensor], fun _ _ _ _ => rfl, fun _ _ _ _ => rfl, ?_⟩⟩
  · simpa using fun _ _ => hvalid 0
  · intro r _ i hi i' hlt
    have := hlen hi
    omega
  · simpa using fun _ _ => (hvalid 1).1
  · simp [userTensor, Tensor.numel]

theorem twoStreams_supported :
    ∀ o ∈ twoStreams, o.Supported 2 fun r => (freshState r).aux.metal.cache := by
  simp only [twoStreams, List.mem_cons, List.not_mem_nil, or_false, forall_eq_or_imp, forall_eq]
  refine ⟨by simp [Collective.Supported, EngineOp.Supported, userTensor], fun i hi => ⟨.f32, .add, fun r hr => ?_⟩⟩
  obtain rfl : i = 0 := by simpa using hi
  exact ⟨rfl, rfl, rfl, rfl, by simp⟩

/-- A run in which the allreduces wait, until no step is left. -/
theorem twoStreams_matched : ∃ g,
    Group.ReachesWaiting ⊤ (Group.init freshState fun r => Collective.calls 2 r 0 twoStreams) g ∧
      (∀ g', ¬ (Group.Step ⊤ g g' ∧ Waits g g')) ∧ g.matched := by
  have hidle : ∀ r < 2, (freshState r).aux.metal.Idle := fun _ _ => ⟨rfl, rfl⟩
  have hacc := (Collective.calls_triple twoStreams_valid hidle twoStreams_supported 0).waiting_acc
    fun _ hr => Collective.calls_eq_nil twoStreams_valid hr 0
  obtain ⟨g, hg, hterm⟩ := Rewriting.exists_terminal hacc
  exact ⟨g, hg, hterm, collectives_matched twoStreams_valid hidle twoStreams_supported hg⟩

theorem twoStreams_broadcast : ∃ t cs y ys q,
    (Collective.calls 2 0 0 twoStreams : List (Nat × RankCall byteDevice)) = (0, .submit t) :: cs ∧
    guarded t = .par [[.recv 1 (y :: ys)]] q :=
  ⟨_, _, _, _, _, rfl, rfl⟩

theorem twoStreams_allreduce : ∃ t p cs x xs q,
    (Collective.calls 2 1 0 twoStreams : List (Nat × RankCall byteDevice)) =
      (0, .submit t) :: (1, .inline p) :: cs ∧
    guarded p = .par [[.send 0 (x :: xs)]] q :=
  ⟨_, _, _, _, _, _, rfl, rfl⟩

/-- The allreduce of rank 1 starts before the engine has taken the broadcast, and
    rank 0 receives the first byte of the one as the first byte of the other. -/
theorem allreduce_overtakes :
    (∀ o ∈ twoStreams, o.Valid 2 ∧ o.Supported 2 fun r => (freshState r).aux.metal.cache) ∧
    ∃ g, Group.Reaches ⊤ (Group.init freshState fun r => Collective.calls 2 r 0 twoStreams) g ∧
      ¬ g.matched := by
  refine ⟨fun o ho => ⟨twoStreams_valid o ho, twoStreams_supported o ho⟩, ?_⟩
  obtain ⟨u, ds, y, ys, q', hb, hu⟩ := twoStreams_broadcast
  obtain ⟨t, p, cs, x, xs, q, ha, hp⟩ := twoStreams_allreduce
  exact overtakes (by simp) Nat.one_ne_zero Nat.one_ne_zero ha hb hp hu

end Mccl
