import Mccl.Backend.Blocks
import Mccl.Backend.Encoding
import Mccl.Backend.ReduceScatter
import Mccl.Framework.Deadlock

/-! # Pairwise-Exchange Collectives

    The six collectives in which every rank has one helper thread per peer
    that first sends and then receives, seen from all ranks at once.

    * `Exchange`: the arguments of all ranks, with the sizes that they agree on.
    * `Exchange.exchanges`: what the ranks do together, as a sequence of rounds.
    * **Main result** (`exchange_deadlock_free_iff`): over sockets that buffer
      `C` bytes, no run gets stuck if and only if of any two messages that cross
      each other in a round one has at most `C` bytes. -/

namespace Mccl

open ForkJoin Arrays

variable {D : Device UInt8}

/-- One of the pairwise-exchange collectives with the arguments of every rank.
    `chunk`, `n`, `esize`, `f` and `k` are what the arguments have in common. -/
inductive Exchange where
  /-- Every rank contributes `chunk` bytes. -/
  | _allgather_base (chunk : Nat) (output input : Nat → Tensor)
  /-- `n` rounds, with `chunk i` bytes per rank in round `i`. -/
  | allgather (n : Nat) (chunk : Nat → Nat) (outputs : Nat → List (List Tensor))
      (inputs : Nat → List Tensor)
  /-- Shares of `chunk` bytes in format `f`, reduced by kernel `k`. -/
  | _reduce_scatter_base (op : RedOpType) (f : Format) (k : BinaryOp) (chunk : Nat)
      (output input : Nat → Tensor)
  | reduce_scatter (op : RedOpType) (f : Nat → Format) (k : BinaryOp) (n : Nat) (chunk : Nat → Nat)
      (outputs : Nat → List Tensor) (inputs : Nat → List (List Tensor))
  /-- `n r p` elements of `esize` bytes go from `r` to `p`. -/
  | alltoall_base (esize : Nat) (n : Nat → Nat → Nat) (output input : Nat → Tensor)
      (output_split_sizes input_split_sizes : Nat → List Int)
  | alltoall (outputs inputs : Nat → List Tensor)

namespace Exchange

/-! ## What the ranks do -/

/-- The call that rank `r` makes. -/
def call (e : Exchange) (w r : Nat) : RankCall D :=
  let pg : ProcessGroupMCCL := ⟨r, w⟩
  match e with
  | _allgather_base _ output input => pg._allgather_base (output r) (input r)
  | allgather _ _ outputs inputs => pg.allgather (outputs r) (inputs r)
  | _reduce_scatter_base op _ _ _ output input => pg._reduce_scatter_base op (output r) (input r)
  | reduce_scatter op _ _ _ _ outputs inputs => pg.reduce_scatter op (outputs r) (inputs r)
  | alltoall_base _ _ output input output_split_sizes input_split_sizes =>
    pg.alltoall_base (output r) (input r) (output_split_sizes r) (input_split_sizes r)
  | alltoall outputs inputs => pg.alltoall (outputs r) (inputs r)

/-- What the engine of rank `r` runs, apart from completing the work. -/
def body (e : Exchange) (w r : Nat) : RankProg D Unit :=
  match e with
  | _allgather_base _ output input => _allgather_base_body r w (output r) (input r)
  | allgather _ _ outputs inputs => allgather_body r w (outputs r) (inputs r)
  | _reduce_scatter_base op _ _ _ output input =>
    _reduce_scatter_base_body r w op (output r) (input r)
  | reduce_scatter op _ _ _ _ outputs inputs => reduce_scatter_body r w op (outputs r) (inputs r)
  | alltoall_base _ _ output input output_split_sizes input_split_sizes =>
    alltoall_base_body r w (output r) (input r) (output_split_sizes r) (input_split_sizes r)
  | alltoall outputs inputs => alltoall_body r w (outputs r) (inputs r)

/-- The arguments of the `w` ranks fit together. -/
def Valid (w : Nat) : Exchange → Prop
  | _allgather_base chunk output input => AllgatherBaseOk w chunk output input
  | allgather n chunk outputs inputs => AllgatherOk w n chunk outputs inputs
  | _reduce_scatter_base _ _ _ chunk output input => ReduceScatterBaseOk w chunk output input
  | reduce_scatter _ _ _ n chunk outputs inputs => ReduceScatterOk w n chunk outputs inputs
  | alltoall_base esize n output input output_split_sizes input_split_sizes =>
    AlltoallBaseOk w esize n output input output_split_sizes input_split_sizes
  | alltoall outputs inputs => AlltoallOk w outputs inputs

/-- A device with kernels `c` on rank `r` can do the reduction. -/
def Reduces (c : KernelCache) (r : Nat) : Exchange → Prop
  | _reduce_scatter_base op f k _ output _ => (output r).Reducible c op f k
  | reduce_scatter op f k n _ outputs _ => ∀ i < n, (entry (outputs r) i).Reducible c op (f i) k
  | _ => True

/-- All tensors of rank `r` are in shared storage. -/
def Shared (r : Nat) : Exchange → Prop
  | _allgather_base _ output input | _reduce_scatter_base _ _ _ _ output input
  | alltoall_base _ _ output input _ _ => (input r).shared = true ∧ (output r).shared = true
  | allgather _ _ outputs inputs =>
    (∀ t ∈ inputs r, t.shared = true) ∧ ∀ ts ∈ outputs r, ∀ t ∈ ts, t.shared = true
  | reduce_scatter _ _ _ _ _ outputs inputs =>
    (∀ ts ∈ inputs r, ∀ t ∈ ts, t.shared = true) ∧ ∀ t ∈ outputs r, t.shared = true
  | alltoall outputs inputs => (∀ t ∈ inputs r, t.shared = true) ∧ ∀ t ∈ outputs r, t.shared = true

/-- How the memory `m'` of rank `r` comes about from the memories `m` of all
    ranks before. -/
def Spec (D : Device UInt8) (w : Nat) (m : Nat → Addr → UInt8) (r : Nat) (m' : Addr → UInt8) :
    Exchange → Prop
  | _allgather_base chunk output input => AllgatherBaseSpec w chunk output input m r m'
  | allgather n _ outputs inputs => AllgatherSpec w n outputs inputs m r m'
  | _reduce_scatter_base op f k chunk output input =>
    ScatterSpec D (fun _ => f) k op w 1 (fun _ => output) (fun _ => baseShare chunk input) m r m'
  | reduce_scatter op f k n _ outputs inputs =>
    ScatterSpec D f k op w n (fun i r => entry (outputs r) i) (roundShare inputs) m r m'
  | alltoall_base esize n output input _ _ => AlltoallBaseSpec w esize n output input m r m'
  | alltoall outputs inputs => ListSpec w outputs (fun p r => entry (inputs p) r) m r m'

/-- The number of times that the ranks exchange messages. -/
def rounds : Exchange → Nat
  | allgather n _ _ _ | reduce_scatter _ _ _ n _ _ _ => n
  | _ => 1

/-- The bytes that `r` sends to `p` in round `i`. -/
def bytes (e : Exchange) (i r p : Nat) : Nat :=
  match e with
  | _allgather_base chunk _ _ | _reduce_scatter_base _ _ _ chunk _ _ => chunk
  | allgather _ chunk _ _ | reduce_scatter _ _ _ _ chunk _ _ => chunk i
  | alltoall_base esize n _ _ _ _ => n r p * esize
  | alltoall _ inputs => (entry (inputs r) p).nbytes

variable {w : Nat}

theorem call_eq {e : Exchange} (hv : e.Valid w) (hw : 2 ≤ w) {r : Nat} (hr : r < w) :
    (e.call w r : RankCall D) = async_submit_ (e.body w r) true := by
  have hw' : w ≠ 1 := by omega
  cases e with
  | alltoall outputs inputs =>
    have hlen : (inputs r).length = w ∧ (outputs r).length = w :=
      ⟨AlltoallOk.ins_length hv r hr, ((AlltoallOk.outs_list hv) r hr).length_eq⟩
    simp [call, body, ProcessGroupMCCL.alltoall, hlen, hw']
  | _allgather_base | allgather | _reduce_scatter_base | reduce_scatter | alltoall_base =>
    exact if_neg hw'

/-- **The ranks together**: a sequence of rounds, after which the result of a
    reduction waits in the queue. -/
theorem exchanges {e : Exchange} (hv : e.Valid w) {st : Nat → RankState D}
    (htag : SameTag w st) (hidle : ∀ r < w, (st r).aux.metal.Idle)
    (hred : ∀ r < w, e.Reduces (st r).aux.metal.cache r) :
    Exchanges w e.rounds e.bytes (e.body w) st fun st' => ∀ r < w, Kept (st r) (st' r) ∧
      ((∀ q < w, e.Shared q) → e.Spec D w (mems st) r (drain (st' r)).mem) := by
  have hbatch := fun r hr => (hidle r hr).batch
  have hdrain : ∀ {r s}, r < w → Calm (st r) s → (drain s).mem = s.mem :=
    fun hr hcalm => drain_mem (hcalm.committed (hidle _ hr).committed)
  cases e with
  | _allgather_base chunk output input =>
    refine (Exchanges.single (_allgather_base_round hv htag)).conseq fun st' h r hr =>
      ⟨(h r hr).1.kept, fun hsh => ?_⟩
    rw [hdrain hr (h r hr).1]
    exact (h r hr).2 hsh
  | allgather n chunk outputs inputs =>
    refine (allgather_exchanges hv htag).conseq fun st' h r hr => ⟨(h r hr).1.kept, fun hsh => ?_⟩
    rw [hdrain hr (h r hr).1]
    exact (h r hr).2 hsh
  | _reduce_scatter_base op f k chunk output input =>
    refine (_reduce_scatter_base_exchanges hv htag hbatch hred).conseq fun st' h r hr =>
      ⟨(h r hr).1, fun hsh => ?_⟩
    exact ((h r hr).2 hsh).drained (ReduceScatterBaseOk.scatterOk hv) hr
      (fun _ _ => (hred r hr).supports.format) (hidle r hr).committed
  | reduce_scatter op f k n chunk outputs inputs =>
    refine (reduce_scatter_exchanges hv htag hbatch fun i hi r hr => hred r hr i hi).conseq
      fun st' h r hr => ⟨(h r hr).1, fun hsh => ?_⟩
    exact ((h r hr).2 hsh).drained (ReduceScatterOk.scatterOk hv) hr
      (fun i hi => (hred r hr i hi).supports.format) (hidle r hr).committed
  | alltoall_base esize n output input output_split_sizes input_split_sizes =>
    refine (Exchanges.single (alltoall_base_round hv htag)).conseq fun st' h r hr =>
      ⟨(h r hr).1.kept, fun hsh => ?_⟩
    rw [hdrain hr (h r hr).1]
    exact (h r hr).2 hsh
  | alltoall outputs inputs =>
    refine (Exchanges.single (alltoall_round hv htag)).conseq fun st' h r hr =>
      ⟨(h r hr).1.kept, fun hsh => ?_⟩
    rw [hdrain hr (h r hr).1]
    exact (h r hr).2 hsh

end Exchange

/-! ## Deadlocks -/

section deadlock
variable {w C : Nat} {op : RedOpType}

/-- What the engine makes of a body. -/
def task (body : RankProg D Unit) : RankProg D Unit :=
  (do body; finish true).tryCatch finishWithException

theorem task_context : Context (task (D := D)) :=
  (Context.tryCatch _).comp (Context.bind _)

theorem task_raceFree {body : RankProg D Unit} (h : body.RaceFree) : (task body).RaceFree :=
  .tryCatch (.bind h fun _ => .modify _) fun _ => .modify _

theorem task_ends {q : RankProg D Unit} (hq : q.Finished) (s : RankState D) : Ends (task q) s := by
  cases q with
  | ret a =>
    have h : (task (.ret a : RankProg D Unit)).Straight := fun _ => trivial
    exact h.ends s
  | raise msg =>
    have h : (task (.raise msg : RankProg D Unit)).Straight := fun _ => trivial
    exact h.ends s
  | act f k => exact hq.elim
  | par ts k => exact hq.elim

/-- A rank's store as far as it decides about a reduction. -/
structure SameBatch (s s' : RankState D) : Prop where
  tag : s'.tag = s.tag
  cache : s'.aux.metal.cache = s.aux.metal.cache
  batch : s'.aux.metal.batch_cmd.isNone = s.aux.metal.batch_cmd.isNone

/-- The kernels of the reduction can be encoded into a batch. -/
def Tensor.Goes (t : Tensor) (op : RedOpType) (s : RankState D) : Prop :=
  s.aux.metal.batch_cmd = none ∧ t.Encodable s.aux.metal.cache op

/-- After the exchange of a round, a rank goes on if and only if it can encode
    the kernels. -/
theorem scatter_attempt {r chunk base : Nat} (out : Nat → Tensor) {share : Nat → Nat → Addr}
    {shared : Prop} {s₀ s : RankState D} (hw : 2 ≤ w) (hout : (out r).Valid)
    (hn : (out r).nbytes = chunk) (hs : SameBatch s₀ s) {x : Staged Addr UInt8 (Local D Host)}
    (hx : ScatterStaged w chunk base op out share shared (fun _ => s) r x) (m : Addr → UInt8) :
    ((out r).Goes op s₀ → ∃ s', SameBatch s₀ s' ∧
      Computes x.post { x.store with mem := m } s' ()) ∧
    (¬ (out r).Goes op s₀ → ∃ s' msg, ∀ k : Unit → RankProg D Unit,
      Relation.ReflTransGen Silent ⟨{ x.store with mem := m }, x.post >>= k⟩ ⟨s', .raise msg⟩) := by
  have hsingle : (out r).Single :=
    ⟨by simp [Tensor.is_mps, hout.mps], hout.contiguous, hout.admitted, hout.numel_pos⟩
  have hcache : x.store.aux.metal.cache = s₀.aux.metal.cache := hx.calm.cache.trans hs.cache
  have hbatch : x.store.aux.metal.batch_cmd.isNone = s₀.aux.metal.batch_cmd.isNone := by
    rw [hx.calm.batch, hs.batch]
  have hstraight := reduce_peers_straight (D := D) r w op (out r)
    (fun p => empty_like (out r) (base + p)) chunk
  rw [hx.post]
  by_cases hclosed : s₀.aux.metal.batch_cmd = none
  · have hclosed' : x.store.aux.metal.batch_cmd = none := by simpa [hclosed] using hbatch
    have hwp := reduce_peers_wp op base (s := { x.store with mem := m }) hsingle hn.symm
      (peers_ne_nil (r := r) hw) hclosed'
    simp only [hcache] at hwp
    rcases hstraight.result hwp with ⟨s', _, hrun, htag, hc, hb, henc⟩ | ⟨s', msg, ⟨-, -, -, hnot⟩, hrun⟩
    · refine ⟨fun _ => ⟨s', ⟨?_, hc, by rw [hb, hclosed]⟩, hrun⟩, fun h => absurd ⟨hclosed, henc⟩ h⟩
      exact htag.trans (hx.calm.tag.trans hs.tag)
    · exact ⟨fun h => absurd h.2 hnot, fun _ => ⟨s', msg, hrun⟩⟩
  · -- The batch of an earlier call is still open.
    have hopen : x.store.aux.metal.batch_cmd.isSome = true := by
      rw [← Option.not_isNone, hbatch, Option.not_isNone]
      exact Option.isSome_iff_ne_none.mpr hclosed
    have hwp : (reduce_peers r w op (out r) (fun p => empty_like (out r) (base + p)) chunk).wp
        (fun _ _ => False) (fun _ s' => s' = { x.store with mem := m }) { x.store with mem := m } :=
      reduce_peers_open hopen
    rcases hstraight.result hwp with ⟨_, _, _, hfalse⟩ | ⟨s', msg, -, hrun⟩
    · exact hfalse.elim
    · exact ⟨fun h => absurd h.1 hclosed, fun _ => ⟨s', msg, hrun⟩⟩

variable {n : Nat} {len : Nat → Nat → Nat → Nat} {goes : Nat → Nat → Prop} {st : Nat → RankState D}
  {e : Exchange}

theorem agrees_of_goes {cap : ℕ∞} (hw : 0 < w) (h : ∀ i r, goes i r) :
    Agrees w cap n len goes ↔ ∀ i < n, Fits w cap (len i) :=
  ⟨fun ha i hi => (ha i hi 0 hw fun _ _ => h _ _).2,
    fun hfit i hi _ _ _ => ⟨fun _ _ _ _ => h _ _, hfit i hi⟩⟩

/-- Rank `r` goes on after the exchange of round `i`. -/
def Exchange.Goes (st : Nat → RankState D) (i r : Nat) : Exchange → Prop
  | _reduce_scatter_base op _ _ _ output _ => (output r).Goes op (st r)
  | reduce_scatter op _ _ _ _ outputs _ => (entry (outputs r) i).Goes op (st r)
  | _ => True

/-- The ranks flow or stall, and nothing races. -/
structure Decided (w C : Nat) (P : Prop) (st : Nat → RankState D) (p : Nat → RankProg D Unit) :
    Prop where
  raceFree : ∀ r < w, (p r).RaceFree
  flow : P → Flows w C st p
  stall : ¬ P → Stalls w C st p

theorem Decided.of_exchanges {body : Nat → RankProg D Unit} {Q : (Nat → RankState D) → Prop}
    (hw : 0 < w) (hgoes : ∀ i r, goes i r) (h : Exchanges w n len body st Q) :
    Decided w C (Agrees w C n len goes) st body where
  raceFree := fun _ hr => h.raceFree hr
  flow := fun ha => h.flows ((agrees_of_goes hw hgoes).mp ha)
  stall := fun ha => h.stalls fun hfit => ha ((agrees_of_goes hw hgoes).mpr hfit)

theorem Decided.of_attempts (round : Nat → Nat → RankProg D PUnit) (hw : 0 < w)
    (hrf : ∀ i < n, ∀ r < w, (round r i).RaceFree)
    (htag : SameTag w st)
    (hpos : ∀ i < n, ∀ r < w, ∀ q < w, 0 < len i r q)
    (h : ∀ i < n, Attempt w (fun r => SameBatch (st r)) (fun r => round r i) (len i) (goes i)) :
    Decided w C (Agrees w C n len goes) st fun r => ForM.forM (List.range n) (round r) := by
  have htag' : ∀ r < w, ∀ q < w, ∀ s s', SameBatch (st r) s → SameBatch (st q) s' → s.tag = s'.tag :=
    fun r hr q hq s s' hs hs' => hs.tag.trans ((htag r hr q hq).trans hs'.tag.symm)
  have hst : ∀ r < w, SameBatch (st r) (st r) := fun r _ => ⟨rfl, rfl, rfl⟩
  exact ⟨fun r hr => .forM fun i hi => hrf i (List.mem_range.mp hi) r hr,
    flows_of_agrees h htag' hst hw, stalls_of_not_agrees h htag' hst hpos⟩

theorem Decided.congr {P : Prop} {p p' : Nat → RankProg D Unit}
    (h : Decided w C P st p) (heq : ∀ r < w, p' r = p r) : Decided w C P st p' :=
  ⟨fun r hr => heq r hr ▸ h.raceFree r hr, fun hP => (h.flow hP).congr heq,
    fun hP => (h.stall hP).congr heq⟩

theorem Exchange.decided (hv : e.Valid w) (hw : 2 ≤ w)
    (htag : SameTag w st) :
    Decided w C (Agrees w C e.rounds e.bytes fun i r => e.Goes st i r) st (e.body w) := by
  have hw0 : 0 < w := by omega
  cases e with
  | _allgather_base chunk output input =>
    exact .of_exchanges hw0 (fun _ _ => trivial) (.single (_allgather_base_round hv htag))
  | allgather n chunk outputs inputs =>
    exact .of_exchanges hw0 (fun _ _ => trivial) (allgather_exchanges hv htag)
  | _reduce_scatter_base op f k chunk output input =>
    have hv : ReduceScatterBaseOk w chunk output input := hv
    refine (Decided.of_attempts (n := 1) (fun r _ =>
      _reduce_scatter_base_body r w op (output r) (input r)) hw0 ?_ htag ?_ ?_).congr
      fun r _ => (Proc.bind_ret _).symm
    · exact fun _ _ r hr => _reduce_scatter_base_raceFree (hv.input_valid r hr) _ r
    · exact fun _ _ r hr _ _ => hv.output_nbytes r hr ▸ (hv.output_valid r hr).nbytes_pos
    · refine fun i _ => ⟨fun r hr s hs => ?_⟩
      obtain ⟨x, hfrom, hx⟩ := _reduce_scatter_base_staged op hv (fun _ => s) hr
      exact ⟨x, hfrom, scatter_attempt output hw (hv.output_valid r hr) (hv.output_nbytes r hr) hs hx⟩
  | reduce_scatter op f k n chunk outputs inputs =>
    have hv : ReduceScatterOk w n chunk outputs inputs := hv
    refine (Decided.of_attempts (n := n) (fun r i =>
      reduce_scatter_one r w op i (entry (outputs r) i) ((inputs r).getD i [])) hw0 ?_ htag ?_
      ?_).congr fun r hr => ?_
    · exact fun i hi r hr => reduce_scatter_one_raceFree (hv.one i hi) hr i
    · intro i hi r hr q _
      have hpos := ((hv.one i hi).out_valid r hr).nbytes_pos
      rwa [(hv.one i hi).out_nbytes r hr] at hpos
    · refine fun i hi => ⟨fun r hr s hs => ?_⟩
      obtain ⟨x, hfrom, hx⟩ := reduce_scatter_one_staged op (hv.one i hi) i (fun _ => s) hr
      exact ⟨x, hfrom, scatter_attempt (fun r => entry (outputs r) i) hw
        ((hv.one i hi).out_valid r hr) ((hv.one i hi).out_nbytes r hr) hs hx⟩
    · simp only [Exchange.body, reduce_scatter_body]
      rw [Proc.check_pos ((hv.outputs_length r hr).trans (hv.inputs_length r hr).symm),
        Proc.ret_bind, hv.outputs_length r hr]
  | alltoall_base esize n output input output_split_sizes input_split_sizes =>
    exact .of_exchanges hw0 (fun _ _ => trivial) (.single (alltoall_base_round hv htag))
  | alltoall outputs inputs =>
    exact .of_exchanges hw0 (fun _ _ => trivial) (.single (alltoall_round hv htag))

theorem Exchange.call_straight (e : Exchange) (r : Nat) :
    ((e.call 1 r : RankCall D).prog).Straight := by
  have hcopy : ∀ dst src : Tensor, (do copy_ dst src; make_completed : RankProg D Unit).Straight :=
    fun _ _ => .bind (.modify _) fun _ => .modify _
  cases e with
  | _allgather_base | _reduce_scatter_base | alltoall_base => exact hcopy _ _
  | allgather | reduce_scatter => exact .bind (.check _ _) fun _ => hcopy _ _
  | alltoall outputs inputs =>
    rw [call, ProcessGroupMCCL.alltoall]
    split
    · trivial
    · exact hcopy _ _

theorem Decided.task {P : Prop} {p : Nat → RankProg D Unit}
    (h : Decided w C P st p) : Decided w C P st fun r => task (p r) :=
  ⟨fun r hr => task_raceFree (h.raceFree r hr),
    fun hP => (h.flow hP).context (F := fun _ => Mccl.task) (fun _ => task_context) fun _ _ => task_ends,
    fun hP => (h.stall hP).context (F := fun _ => Mccl.task) (fun _ => task_context)
      fun _ _ => task_ends⟩

theorem Exchange.decided_call (hv : e.Valid w) (hw : 2 ≤ w)
    (htag : SameTag w st) :
    Decided w C (Agrees w C e.rounds e.bytes fun i r => e.Goes st i r) st
      fun r => (e.call w r).prog :=
  (e.decided hv hw htag).task.congr fun r hr => by rw [Exchange.call_eq hv hw hr]; rfl

/-- The ranks get stuck if they do not agree. -/
theorem Exchange.stuck (hv : e.Valid w) (hw : 2 ≤ w) (hC : 0 < C)
    (htag : SameTag w st)
    (hnot : ¬ Agrees w C e.rounds e.bytes fun i r => e.Goes st i r) :
    ∃ y, Reaches (C : ℕ∞) (start (List.range w) st fun r => (e.call w r).prog) y ∧ ¬ y.Finished ∧
      ∀ z, ¬ Step (C : ℕ∞) y z := by
  have hd := e.decided_call (C := C) hv hw htag
  exact (hd.stall hnot).stuck hd.raceFree hC

/-- **Deadlock freedom**: over sockets that buffer `C` bytes, no run gets stuck
    if and only if every round that some rank comes to is one that all ranks
    come to, and of two messages that cross each other in it one has at most
    `C` bytes. -/
theorem exchange_deadlock_free_iff {e : Exchange} {w C : Nat} (hv : e.Valid w) (hC : 0 < C)
    {st : Nat → RankState D} (htag : ∀ r < w, ∀ q < w, (st r).tag = (st q).tag) :
    (∀ y, Reaches (C : ℕ∞) (start (List.range w) st fun r => (e.call w r).prog) y → ¬ y.Finished →
      ∃ z, Step (C : ℕ∞) y z) ↔
    ∀ i < e.rounds, ∀ r < w, (∀ i' < i, e.Goes st i' r) →
      (∀ q < w, ∀ i' < i, e.Goes st i' q) ∧
      ∀ p < w, ∀ q < w, q ≠ p → e.bytes i p q ≤ C ∨ e.bytes i q p ≤ C := by
  have hagrees : (∀ i < e.rounds, ∀ r < w, (∀ i' < i, e.Goes st i' r) →
      (∀ q < w, ∀ i' < i, e.Goes st i' q) ∧
      ∀ p < w, ∀ q < w, q ≠ p → e.bytes i p q ≤ C ∨ e.bytes i q p ≤ C) ↔
      Agrees w C e.rounds e.bytes fun i r => e.Goes st i r := by
    simp only [Agrees, Fits, Nat.cast_le]
  rw [hagrees]
  by_cases hw : 2 ≤ w
  · have hd := e.decided_call (C := C) hv hw htag
    exact progress_iff hd.flow hd.stall hd.raceFree hC
  · -- At most one rank: there is nobody to wait for.
    have hone : ∀ r < w, w = 1 := fun r hr => by omega
    refine iff_of_true ?_ fun i _ r hr hreach => ⟨fun q hq => ?_, fun r hr q hq hqr => by omega⟩
    · have hflow : Flows w (C : ℕ∞) st fun r => (e.call w r).prog :=
        .ends fun r hr => by
          rw [hone r hr]
          exact (e.call_straight r).ends _
      refine (progress_iff (P := True) (fun _ => hflow) (fun h => absurd trivial h) (fun r hr => ?_)
        hC).mpr trivial
      rw [hone r hr]
      exact (e.call_straight r).raceFree
    · obtain rfl : q = r := by omega
      exact hreach

/-- Two ranks gather `chunk` bytes each. -/
def smallGather (chunk : Nat) : Exchange :=
  ._allgather_base chunk (fun _ => userTensor .Byte 1 (chunk * 2)) fun _ => userTensor .Byte 0 chunk

theorem smallGather_valid {chunk : Nat} (h : 0 < chunk) : (smallGather chunk).Valid 2 where
  input_valid := fun _ _ => ⟨⟨rfl, rfl, rfl, by simpa [Tensor.numel, userTensor] using h⟩, 0, rfl⟩
  output_valid := fun _ _ => ⟨⟨rfl, rfl, rfl, by simpa [Tensor.numel, userTensor] using h⟩, 1, rfl⟩
  input_nbytes := fun _ _ => by
    simp [Tensor.nbytes, Tensor.numel, Tensor.element_size, userTensor, ScalarType.elementSize]
  output_nbytes := fun _ _ => by
    simp [Tensor.nbytes, Tensor.numel, Tensor.element_size, userTensor, ScalarType.elementSize]

theorem smallGather_progress : (smallGather 1).Valid 2 ∧
    ∀ y, Reaches ((1 : Nat) : ℕ∞) (start (List.range 2) freshState fun r =>
      ((smallGather 1).call 2 r).prog) y → ¬ y.Finished → ∃ z, Step ((1 : Nat) : ℕ∞) y z :=
  ⟨smallGather_valid Nat.one_pos,
    (exchange_deadlock_free_iff (smallGather_valid Nat.one_pos) Nat.one_pos fun _ _ _ _ => rfl).mpr
      fun _ _ _ _ _ => ⟨fun _ _ _ _ => trivial, fun _ _ _ _ _ => .inl le_rfl⟩⟩

/-- Two bytes do not fit into a socket that buffers one. -/
theorem smallGather_stuck :
    ∃ y, Reaches ((1 : Nat) : ℕ∞) (start (List.range 2) freshState fun r =>
      ((smallGather 2).call 2 r).prog) y ∧ ¬ y.Finished ∧ ∀ z, ¬ Step ((1 : Nat) : ℕ∞) y z := by
  refine Exchange.stuck (smallGather_valid Nat.two_pos) le_rfl Nat.one_pos (fun _ _ _ _ => rfl)
    fun hagrees => ?_
  have hfits := (hagrees 0 Nat.one_pos 0 Nat.two_pos fun _ _ => trivial).2
  have := hfits 0 Nat.two_pos 1 Nat.one_lt_two Nat.one_ne_zero
  simp [Exchange.bytes, smallGather] at this

end deadlock

end Mccl
