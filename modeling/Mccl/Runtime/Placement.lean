import Mccl.Runtime.ClusterManager

/-! # Jobs on Nodes that Are Gone

    The cluster manager at the grain of its locks. `scheduler_loop` reads the online
    nodes under `state_mu_` and calls `schedule_tick`, which has a lock of its own,
    with what it has read; `handle_node_failure` marks the node, evicts it, and asks
    who leads, each under the lock that the part needs. Between these parts any
    other call may run.

    * `no_job_on_offline_node`: between calls no active job has an offline node, in
      runs in which no node leaves that a job uses and every node of a snapshot is
      there, or has its eviction ahead, when the tick uses it.
    * `job_on_offline_node`: `handle_leave` evicts nothing, and a snapshot from
      before a failure places a job after the eviction. -/

namespace Mccl

namespace Scheduler

/-! ## Where Active Jobs Come From -/

theorem allocateLoop_subset {config : Config} {job : JobDescriptor} (nodes assigned : List UInt16)
    (loads : List NodeLoad) : (allocateLoop config job nodes assigned loads).1 ⊆ assigned ++ nodes := by
  induction nodes generalizing assigned loads with
  | nil =>
    rw [List.append_nil]
    exact List.Subset.refl _
  | cons nid rest ih =>
    have hskip : assigned ++ rest ⊆ assigned ++ nid :: rest :=
      ((List.sublist_cons_self nid rest).append_left assigned).subset
    unfold allocateLoop
    split
    · exact List.subset_append_left ..
    · split
      · exact List.Subset.trans (ih ..) hskip
      · split
        · have htake := ih (assigned ++ [nid])
          simp only [List.append_assoc, List.singleton_append] at htake
          exact htake _
        · exact List.Subset.trans (ih ..) hskip

variable {now_us : UInt64 → UInt64} {j : JobDescriptor} {s : Scheduler}

theorem startLoop_assigned {config : Config} {online : List UInt16}
    {queue : List JobDescriptor} {loads : List NodeLoad}
    (hj : j ∈ (startLoop config online now_us queue loads).started) : j.assigned_nodes ⊆ online := by
  induction queue generalizing loads with
  | nil => cases hj
  | cons job rest ih =>
    unfold startLoop at hj
    split at hj
    · rcases List.mem_cons.mp hj with heq | hj
      · rw [heq]
        exact allocateLoop_subset online [] loads
      · exact ih hj
    · exact ih hj

theorem schedule_tick_assigned {order : List JobDescriptor} {online : List UInt16}
    {loads : List NodeLoad} (hj : j ∈ (s.schedule_tick order online loads now_us).2.active_) :
    j ∈ s.active_ ∨ j.assigned_nodes ⊆ online := by
  let r := startLoop s.config_ online now_us (order.map (boost s.tenant_stats_)) loads
  have hmem : j ∈ s.active_ ++ r.started := by
    unfold schedule_tick preempt at hj
    split at hj
    · exact (preemptLoop_sublist ..).subset hj
    · exact hj
  rcases List.mem_append.mp hmem with hold | hnew
  · exact .inl hold
  · exact .inr (startLoop_assigned hnew)

theorem evictLoop_assigned (failed : UInt16) (now_us : UInt64 → UInt64) (jobs : List JobDescriptor) (s : Scheduler)
    (h : ∀ j ∈ s.removeEvicted.active_, failed ∉ j.assigned_nodes) :
    ∀ j ∈ (jobs.foldl (evictBody failed now_us) s).removeEvicted.active_, failed ∉ j.assigned_nodes := by
  induction jobs generalizing s with
  | nil => exact h
  | cons job rest ih =>
    apply ih
    intro j hj
    simp only [evictBody] at hj
    -- a job that has the node gets a status with which it is removed
    split at hj
    · split at hj
      · exact h j (by simpa [removeEvicted, stays, List.filter_append] using hj)
      · exact h j (by simpa [removeEvicted, stays, List.filter_append] using hj)
    · rename_i hnot
      simp only [removeEvicted, List.filter_append] at hj
      rcases List.mem_append.mp hj with hold | hnew
      · exact h j hold
      · have heq : j = job := List.mem_singleton.mp (List.mem_of_mem_filter hnew)
        rw [heq]
        exact hnot

theorem evict_node_assigned {failed : UInt16}
    (hj : j ∈ (s.evict_node failed now_us).active_) : failed ∉ j.assigned_nodes := by
  refine evictLoop_assigned failed now_us s.active_ { s with active_ := [] } ?_ j hj
  intro j hj
  cases hj

theorem takeJob_subset {id : UInt64} {l r : List JobDescriptor} {job : JobDescriptor}
    (h : takeJob id l = some (job, r)) : r ⊆ l := by
  intro j hj
  exact (takeJob_some h).1.mem_iff.mpr (List.mem_cons_of_mem _ hj)

theorem cancel_active (s : Scheduler) (id now_us : UInt64) : (s.cancel id now_us).2.active_ ⊆ s.active_ := by
  unfold cancel
  split
  · exact List.Subset.refl _
  · split
    · rename_i htake
      exact takeJob_subset htake
    · exact List.Subset.refl _

theorem complete_active (s : Scheduler) (id : UInt64) (success : Bool) (now_us : UInt64) :
    (s.complete id success now_us).2.active_ ⊆ s.active_ := by
  unfold complete
  split
  · exact List.Subset.refl _
  · rename_i htake
    exact takeJob_subset htake

/-- An active job has the node. -/
def Uses (s : Scheduler) (n : UInt16) : Prop := ∃ j ∈ s.active_, n ∈ j.assigned_nodes

theorem Uses.mono {s' : Scheduler} {n : UInt16} (h : s'.Uses n) (hsub : s'.active_ ⊆ s.active_) : s.Uses n := by
  obtain ⟨j, hj, hn⟩ := h
  exact ⟨j, hsub hj, hn⟩

end Scheduler

namespace Placement

open ClusterManager ClusterState

/-! ## The Parts of the Calls -/

/-- What a call of `handle_node_failure` does next. -/
inductive Failing where
  | evict_node
  | is_leader
  /-- The election takes no lock. -/
  | elect_leader
deriving DecidableEq

structure State where
  manager : ClusterManager
  /-- What `scheduler_loop` has read for its next tick. -/
  snapshot : Option (List UInt16 × List NodeLoad) := none
  /-- The calls of `handle_node_failure` in progress; any thread may make one. -/
  failing : List (NodeId × Failing) := []

/-- The first part of `handle_node_failure`. -/
def mark_offline (m : ClusterManager) (failed_node_id : NodeId) : ClusterManager :=
  let entry := { m.state_.nodes failed_node_id with status := .OFFLINE }
  { m with state_ := (m.state_.setNode failed_node_id entry).bump (-1) }

/-- The calls that are one critical section. -/
def OneSection : ClusterManager.Event → Prop
  | .failure _ _ => False
  | .tick _ _ => False
  | _ => True

inductive Event where
  | call (e : ClusterManager.Event)
  | mark_offline (n : NodeId)
  | evict_node (n : NodeId) (now_us : UInt64 → UInt64)
  | is_leader (n : NodeId)
  | elect_leader (n : NodeId)
  | snapshot
  | schedule_tick (order : List JobDescriptor) (now_us : UInt64 → UInt64)

inductive Step : State → Event → State → Prop where
  | call {s : State} {e : ClusterManager.Event} {m : ClusterManager} (he : OneSection e)
      (h : ClusterManager.Step s.manager e m) : Step s (.call e) { s with manager := m }
  | mark_offline {s : State} (hfree : s.manager.blocked = false) (n : NodeId) :
      Step s (.mark_offline n)
        { s with manager := Placement.mark_offline s.manager n, failing := (n, .evict_node) :: s.failing }
  | evict_node {s : State} {n : NodeId} (l₁ l₂ : List (NodeId × Failing))
      (h : s.failing = l₁ ++ (n, .evict_node) :: l₂) (now_us : UInt64 → UInt64) :
      Step s (.evict_node n now_us)
        { s with
          manager := { s.manager with
            scheduler_ := s.manager.scheduler_.evict_node (UInt16.ofNat n.val) now_us }
          failing := l₁ ++ (n, .is_leader) :: l₂ }
  | is_leader {s : State} {n : NodeId} (l₁ l₂ : List (NodeId × Failing))
      (h : s.failing = l₁ ++ (n, .is_leader) :: l₂) (hfree : s.manager.blocked = false) :
      Step s (.is_leader n)
        { s with
          failing :=
            if s.manager.state_.leader_id = s.manager.node_id_ then l₁ ++ (n, .elect_leader) :: l₂
            else l₁ ++ l₂ }
  | elect_leader {s : State} {n : NodeId} (l₁ l₂ : List (NodeId × Failing))
      (h : s.failing = l₁ ++ (n, .elect_leader) :: l₂) :
      Step s (.elect_leader n)
        { s with
          manager := { s.manager with
            state_ := ClusterState.elect_leader s.manager.node_id_ s.manager.state_ }
          failing := l₁ ++ l₂ }
  | snapshot {s : State} (hfree : s.manager.blocked = false) (h : s.snapshot = none) :
      Step s .snapshot
        { s with snapshot := some (online_nodes s.manager.state_, node_loads s.manager.state_) }
  | schedule_tick {s : State} {online : List UInt16} {loads : List NodeLoad}
      (h : s.snapshot = some (online, loads)) {order : List JobDescriptor}
      (horder : Scheduler.SortOf s.manager.scheduler_.queue_ order) (now_us : UInt64 → UInt64) :
      Step s (.schedule_tick order now_us)
        { s with
          manager := { s.manager with
            scheduler_ := (s.manager.scheduler_.schedule_tick order online loads now_us).2 }
          snapshot := none }

/-- The manager of node `me`, with any calls under way. -/
def calls (me : NodeId) (memory_per_node : UInt64) : System State Event :=
  ⟨fun s => s = { manager := .new me memory_per_node }, Step⟩

/-! ## Whole Calls -/

variable {me : NodeId} {memory_per_node : UInt64}

/-! ## The Invariant -/

/-- The node is not offline, or a call that has marked it is about to evict it. -/
def Covered (s : State) (n : NodeId) : Prop :=
  (s.manager.state_.nodes n).status ≠ .OFFLINE ∨ (n, Failing.evict_node) ∈ s.failing

/-- The nodes of active jobs are covered. -/
def Placed (s : State) : Prop := ∀ n : NodeId, s.manager.scheduler_.Uses (UInt16.ofNat n.val) → Covered s n

/-- A node leaves only if no active job has it (or its eviction is ahead), and a
    tick is given only nodes that are covered when it runs. -/
def Timely (s : State) : Event → Prop
  | .call (.leave n) =>
    (s.manager.state_.nodes n).status = .OFFLINE ∨ (n, Failing.evict_node) ∈ s.failing ∨
      ¬ s.manager.scheduler_.Uses (UInt16.ofNat n.val)
  | .schedule_tick _ _ =>
    ∀ online loads, s.snapshot = some (online, loads) →
      ∀ n : NodeId, UInt16.ofNat n.val ∈ online → Covered s n
  | _ => True

section Steps

variable {s s' : State}

theorem Placed.mono (h : Placed s) (huses : s'.manager.scheduler_.active_ ⊆ s.manager.scheduler_.active_)
    (hcov : ∀ n, Covered s n → Covered s' n) : Placed s' := by
  intro n hn
  exact hcov n (h n (hn.mono huses))

theorem Covered.of_status {n : NodeId} (h : Covered s n) (hfailing : s'.failing = s.failing)
    (hst : (s.manager.state_.nodes n).status ≠ .OFFLINE → (s'.manager.state_.nodes n).status ≠ .OFFLINE) :
    Covered s' n := by
  unfold Covered at h ⊢
  rw [hfailing]
  exact h.imp_left hst

theorem Covered.of_online {st : ClusterState} {entry : NodeInfo} {i n : NodeId} (hentry : entry.status = .ONLINE)
    (h : (st.nodes n).status ≠ .OFFLINE) : ((st.setNode i entry).nodes n).status ≠ .OFFLINE := by
  rw [status_setNode]
  split
  · rw [hentry]
    exact NodeStatus.noConfusion
  · exact h

theorem Placed.join (h : Placed s) (info : NodeInfo) (now_us : UInt64) :
    Placed { s with manager := s.manager.handle_join info now_us } := by
  refine h.mono (List.Subset.refl _) ?_
  intro n hn
  refine hn.of_status rfl ?_
  intro hst
  unfold handle_join
  rw [nodes_elect_leader]
  exact Covered.of_online rfl hst

theorem Placed.heartbeat (h : Placed s) (info : NodeInfo) (now_us : UInt64) :
    Placed { s with manager := s.manager.handle_heartbeat info now_us } := by
  obtain ⟨entry, hentry, heq⟩ := heartbeat_cases s.manager info now_us
  refine h.mono ?_ ?_
  · unfold handle_heartbeat
    dsimp only
    repeat' split
    all_goals exact List.Subset.refl _
  · intro n hn
    refine hn.of_status rfl ?_
    intro hst
    show ((s.manager.handle_heartbeat info now_us).state_.nodes n).status ≠ .OFFLINE
    rw [heq]
    split
    · exact Covered.of_online hentry hst
    · exact Covered.of_online hentry hst

/-- A leave evicts nothing. -/
theorem Placed.leave (h : Placed s) (n : NodeId) (hok : Timely s (.call (.leave n))) :
    Placed { s with manager := s.manager.handle_leave n } := by
  unfold handle_leave
  split
  · exact h
  · rename_i honline
    intro k hk
    by_cases hkn : k = n
    · -- the node that leaves: no job has it, or the eviction is still ahead
      subst hkn
      rcases hok with hoff | hahead | hunused
      · exact absurd hoff honline
      · exact .inr hahead
      · exact absurd hk hunused
    · refine (h k hk).of_status rfl ?_
      intro hst
      dsimp only
      rw [nodes_elect_leader]
      show ((s.manager.state_.setNode n _).nodes k).status ≠ .OFFLINE
      rw [status_setNode, if_neg hkn]
      exact hst

theorem Placed.mark (h : Placed s) (n : NodeId) :
    Placed { s with manager := mark_offline s.manager n, failing := (n, .evict_node) :: s.failing } := by
  refine h.mono (List.Subset.refl _) ?_
  intro k hk
  by_cases hkn : k = n
  · subst hkn
    exact .inr List.mem_cons_self
  · rcases hk with hst | hahead
    · left
      show ((s.manager.state_.setNode n _).nodes k).status ≠ .OFFLINE
      rw [status_setNode, if_neg hkn]
      exact hst
    · exact .inr (List.mem_cons_of_mem _ hahead)

theorem Placed.evict (h : Placed s) {n : NodeId} {l₁ l₂ : List (NodeId × Failing)}
    (hfailing : s.failing = l₁ ++ (n, .evict_node) :: l₂) (now_us : UInt64 → UInt64) :
    Placed { s with
      manager := { s.manager with
        scheduler_ := s.manager.scheduler_.evict_node (UInt16.ofNat n.val) now_us }
      failing := l₁ ++ (n, .is_leader) :: l₂ } := by
  intro k hk
  have hbefore := h k (hk.mono (Scheduler.evict_node_sublist ..).subset)
  have hkn : k ≠ n := by
    intro heq
    obtain ⟨j, hj, hmem⟩ := hk
    exact Scheduler.evict_node_assigned hj (heq ▸ hmem)
  unfold Covered at hbefore ⊢
  rw [hfailing] at hbefore
  -- what another call has ahead stays ahead
  simpa [hkn] using hbefore

theorem Placed.tick (h : Placed s) {online : List UInt16} {loads : List NodeLoad} {order : List JobDescriptor}
    (hsnap : s.snapshot = some (online, loads)) (now_us : UInt64 → UInt64)
    (hok : Timely s (.schedule_tick order now_us)) :
    Placed { s with
      manager := { s.manager with
        scheduler_ := (s.manager.scheduler_.schedule_tick order online loads now_us).2 }
      snapshot := none } := by
  intro k hk
  obtain ⟨j, hj, hmem⟩ := hk
  rcases Scheduler.schedule_tick_assigned hj with hold | hnew
  · exact h k ⟨j, hold, hmem⟩
  · exact hok online loads hsnap k (hnew hmem)

/-- The calls that are one critical section. -/
theorem Placed.call (h : Placed s) {e : ClusterManager.Event} {m : ClusterManager} (he : OneSection e)
    (hok : Timely s (.call e)) (hs : ClusterManager.Step s.manager e m) : Placed { s with manager := m } := by
  cases hs with
  | join _ info now_us => exact h.join info now_us
  | leave _ n => exact h.leave n hok
  | heartbeat _ info now_us => exact h.heartbeat info now_us
  | failure => exact absurd he id
  | tick => exact absurd he id
  | submit_job => exact h.mono (List.Subset.refl _) fun _ hn => hn
  | cancel_job id now_us => exact h.mono (Scheduler.cancel_active ..) fun _ hn => hn
  | complete_job id success now_us => exact h.mono (Scheduler.complete_active ..) fun _ hn => hn

theorem Placed.step {e : Event} (h : Placed s) (hok : Timely s e) (hs : Step s e s') : Placed s' := by
  cases hs with
  | call he hcall => exact h.call he hok hcall
  | mark_offline _ n => exact h.mark n
  | evict_node l₁ l₂ hfailing now_us => exact h.evict hfailing now_us
  | is_leader l₁ l₂ hfailing =>
    -- the call that moves on had evicted before
    refine h.mono (List.Subset.refl _) ?_
    intro k hk
    unfold Covered at hk ⊢
    rw [hfailing] at hk
    split <;> simpa using hk
  | elect_leader l₁ l₂ hfailing =>
    refine h.mono (List.Subset.refl _) ?_
    intro k hk
    unfold Covered at hk ⊢
    dsimp only
    rw [nodes_elect_leader]
    rw [hfailing] at hk
    simpa using hk
  | snapshot => exact h.mono (List.Subset.refl _) fun _ hn => hn
  | schedule_tick hsnap _ now_us => exact h.tick hsnap now_us hok

end Steps

theorem placed_of_reach {s : State} (h : (calls me memory_per_node).Reach Timely s) : Placed s := by
  refine h.invariant ?_ fun s e s' => Placed.step
  intro s hs n hn
  subst hs
  obtain ⟨j, hj, _⟩ := hn
  cases hj

/-- No handler is in progress. The scheduler loop may have a snapshot in hand. -/
def Quiet (s : State) : Prop := s.failing = [] ∧ s.manager.blocked = false

/-- **No running job sits on a dead node** between the calls of a timely run. -/
theorem no_job_on_offline_node {me : NodeId} {memory_per_node : UInt64} {s : State}
    (h : (calls me memory_per_node).Reach Timely s) (hquiet : Quiet s) :
    ∀ j ∈ s.manager.scheduler_.active_, ∀ n : NodeId, UInt16.ofNat n.val ∈ j.assigned_nodes →
      (s.manager.state_.nodes n).status ≠ .OFFLINE := by
  intro j hj n hn
  rcases placed_of_reach h n ⟨j, hj, hn⟩ with hst | hahead
  · exact hst
  · rw [hquiet.1] at hahead
    cases hahead

/-- A job runs on nodes 0 and 1. Node 1 fails, and the job is queued again. -/
theorem failed_node_evicted : ∃ s, (calls 0 8).Reach Timely s ∧ Quiet s ∧
    s.manager.scheduler_.queue_.map (·.assigned_nodes) = [[0]] ∧ (s.manager.state_.nodes 1).status = .OFFLINE ∧
    ∀ j ∈ s.manager.scheduler_.active_, ∀ n : NodeId, UInt16.ofNat n.val ∈ j.assigned_nodes →
      (s.manager.state_.nodes n).status ≠ .OFFLINE := by
  have hinit : (calls 0 8).Reach Timely _ := .init rfl
  have hjoin := hinit.next (.call (by exact trivial) (ClusterManager.Step.join rfl { node_id := 1 } 5))
  have hsubmit := hjoin.next (.call (by exact trivial) (ClusterManager.Step.submit_job _ "a" 2 4 .NORMAL 6))
  have hsnap := hsubmit.next (.snapshot rfl rfl)
  have htick := hsnap.step (by
    intro online loads heq n hn
    left
    cases heq
    revert n
    decide) (Step.schedule_tick rfl ⟨.refl _, List.pairwise_singleton ..⟩ fun _ => 7)
  have hmark := htick.next (.mark_offline rfl 1)
  have hevict := hmark.next (.evict_node [] [] rfl fun _ => 8)
  have hask := hevict.next (.is_leader [] [] rfl rfl)
  have helect := hask.next (.elect_leader [] [] rfl)
  exact ⟨_, helect, ⟨rfl, rfl⟩, by decide, by decide, no_job_on_offline_node helect ⟨rfl, rfl⟩⟩

/-- A job has a node that is offline, and no call is in progress. -/
def Stranded (s : State) : Prop :=
  Quiet s ∧ s.snapshot = none ∧ ∃ j ∈ s.manager.scheduler_.active_, ∃ n : NodeId,
    UInt16.ofNat n.val ∈ j.assigned_nodes ∧ (s.manager.state_.nodes n).status = .OFFLINE

/-- Node 1 leaves while a job runs on it; or it fails between the snapshot and the
    tick that starts the job. -/
theorem job_on_offline_node :
    (∃ s, (calls 0 8).Reachable s ∧ Stranded s ∧ (s.manager.state_.nodes 0).status = .ONLINE) ∧
      ∃ s, (calls 0 8).Reachable s ∧ Stranded s ∧ s.manager.scheduler_.history_ = [] := by
  have hinit : (calls 0 8).Reachable _ := .init rfl
  have hjoin := hinit.next (.call (by exact trivial) (ClusterManager.Step.join rfl { node_id := 1 } 5))
  have hsubmit := hjoin.next (.call (by exact trivial) (ClusterManager.Step.submit_job _ "a" 2 4 .NORMAL 6))
  have hsnap := hsubmit.next (.snapshot rfl rfl)
  constructor
  · have htick := hsnap.next (.schedule_tick rfl ⟨.refl _, List.pairwise_singleton ..⟩ fun _ => 7)
    have hleave := htick.next (.call (by exact trivial) (ClusterManager.Step.leave rfl 1))
    exact ⟨_, hleave, ⟨⟨rfl, by decide⟩, rfl, _, List.mem_cons_self, 1, by decide, by decide⟩, by decide⟩
  · have hmark := hsnap.next (.mark_offline rfl 1)
    have hevict := hmark.next (.evict_node [] [] rfl fun _ => 8)
    have hask := hevict.next (.is_leader [] [] rfl rfl)
    have helect := hask.next (.elect_leader [] [] rfl)
    have htick := helect.next (.schedule_tick rfl ⟨.refl _, List.pairwise_singleton ..⟩ fun _ => 9)
    exact ⟨_, htick, ⟨⟨rfl, by decide⟩, rfl, _, List.mem_cons_self, 1, by decide, by decide⟩, rfl⟩

end Placement

end Mccl
