import Mathlib.Algebra.Group.Basic
import Mathlib.Algebra.Group.Int.Defs
import Mathlib.Data.Finset.Card
import Mathlib.Data.Fintype.Basic
import Mccl.Runtime.Scheduler

/-! # The Cluster Manager

    Model of the membership and scheduling side of `ClusterManager`
    (`runtime/ClusterManager.cpp`). Each call is one step; the calls that lock
    `state_mu_` wait for good once `handle_leave` has locked it a second time.

    * `online_count` and `version` are adjusted by hand in each handler
      (`membership_exact`): a join of an online node, a leave of a node that is
      neither online nor offline, a heartbeat of an unknown node and a failure of
      a node that is not online break them.
    * A heartbeat does not elect, and a failure elects only on the leader itself
      (`leader_exact`).
    * The loads of a tick are those of the last heartbeats, whatever the active
      jobs reserve (`not_overcommitted`). -/

namespace Mccl

inductive NodeStatus where
  | UNKNOWN
  | ONLINE
  | DEGRADED
  | OFFLINE
deriving DecidableEq

abbrev MAX_CLUSTER_NODES : Nat := 8

/-- The index of a node in `nodes`. -/
abbrev NodeId := Fin MAX_CLUSTER_NODES

structure NodeInfo where
  node_id : NodeId
  total_memory : UInt64 := 0
  free_memory : UInt64 := 0
  status : NodeStatus := .UNKNOWN
  last_heartbeat_us : UInt64 := 0
  heartbeat_seq : UInt64 := 0

structure ClusterState where
  nodes : NodeId → NodeInfo
  version : UInt64 := 0
  leader_id : NodeId
  online_count : Int

namespace ClusterState

/-- The nodes with status `ONLINE`. -/
def online (st : ClusterState) : Finset NodeId := Finset.univ.filter fun i => (st.nodes i).status = .ONLINE

/-- The lowest online node, or `self` if there is none. -/
def elect_leader (self : NodeId) (st : ClusterState) : ClusterState :=
  match (List.finRange MAX_CLUSTER_NODES).find? fun i => (st.nodes i).status = .ONLINE with
  | some i => { st with leader_id := i }
  | none => { st with leader_id := self }

/-- `nodes[i] = info`. -/
def setNode (st : ClusterState) (i : NodeId) (info : NodeInfo) : ClusterState :=
  { st with nodes := Function.update st.nodes i info }

/-- The membership changed: `online_count` moves by `d`, `version` by one. -/
def bump (st : ClusterState) (d : Int) : ClusterState :=
  { st with online_count := st.online_count + d, version := st.version + 1 }

end ClusterState

structure ClusterManager where
  node_id_ : NodeId
  state_ : ClusterState
  scheduler_ : Scheduler
  /-- A call waits for `state_mu_` while it holds it. -/
  blocked : Bool := false

namespace ClusterManager

open ClusterState

/-- The constructor. -/
def new (node_id : NodeId) (memory_per_node : UInt64) : ClusterManager where
  node_id_ := node_id
  state_ := {
    nodes := Function.update (fun _ => { node_id := 0 }) node_id { node_id := node_id, status := .ONLINE }
    leader_id := node_id
    online_count := 1 }
  scheduler_ := { config_ := { memory_per_node := memory_per_node } }

/-! ## The Handlers -/

def handle_join (m : ClusterManager) (info : NodeInfo) (now_us : UInt64) : ClusterManager :=
  let entry := { info with status := .ONLINE, last_heartbeat_us := now_us }
  { m with state_ := elect_leader m.node_id_ ((m.state_.setNode info.node_id entry).bump 1) }

def handle_leave (m : ClusterManager) (node_id : NodeId) : ClusterManager :=
  if (m.state_.nodes node_id).status = .OFFLINE then m
  else
    let entry := { m.state_.nodes node_id with status := .OFFLINE }
    let st := elect_leader m.node_id_ ((m.state_.setNode node_id entry).bump (-1))
    -- `handle_node_failure` locks `state_mu_`, which this call holds
    { m with state_ := st, blocked := node_id = st.leader_id }

def handle_heartbeat (m : ClusterManager) (info : NodeInfo) (now_us : UInt64) : ClusterManager :=
  let entry := m.state_.nodes info.node_id
  -- A node not seen before is copied with its status set, so that the test below does not count it.
  let entry := if entry.status = .UNKNOWN then { info with status := .ONLINE } else entry
  let entry := { entry with
    last_heartbeat_us := now_us
    heartbeat_seq := info.heartbeat_seq
    free_memory := info.free_memory }
  if entry.status ≠ .ONLINE then
    { m with state_ := (m.state_.setNode info.node_id { entry with status := .ONLINE }).bump 1 }
  else { m with state_ := m.state_.setNode info.node_id entry }

def handle_node_failure (m : ClusterManager) (failed_node_id : NodeId) (now_us : UInt64 → UInt64) :
    ClusterManager :=
  let entry := { m.state_.nodes failed_node_id with status := .OFFLINE }
  let st := (m.state_.setNode failed_node_id entry).bump (-1)
  let scheduler := m.scheduler_.evict_node (UInt16.ofNat failed_node_id.val) now_us
  -- `is_leader()` asks whether this node leads
  let st := if st.leader_id = m.node_id_ then elect_leader m.node_id_ st else st
  { m with state_ := st, scheduler_ := scheduler }

/-! ## The Scheduler Loop -/

def online_nodes (st : ClusterState) : List UInt16 :=
  ((List.finRange MAX_CLUSTER_NODES).filter fun i => (st.nodes i).status = .ONLINE).map fun i =>
    UInt16.ofNat i.val

/-- The loads that `scheduler_loop` builds: the memory in use as the node last
    reported it. -/
def node_loads (st : ClusterState) : List NodeLoad :=
  (List.finRange MAX_CLUSTER_NODES).map fun i =>
    if (st.nodes i).status = .ONLINE then
      { memory_used := (st.nodes i).total_memory - (st.nodes i).free_memory }
    else {}

/-- One turn of `scheduler_loop`. -/
def scheduler_tick (m : ClusterManager) (order : List JobDescriptor) (now_us : UInt64 → UInt64) : ClusterManager :=
  { m with
    scheduler_ :=
      (m.scheduler_.schedule_tick order (online_nodes m.state_) (node_loads m.state_) now_us).2 }

inductive Event where
  | join (info : NodeInfo) (now_us : UInt64)
  | leave (node_id : NodeId)
  | heartbeat (info : NodeInfo) (now_us : UInt64)
  | failure (node_id : NodeId) (now_us : UInt64 → UInt64)
  | submit_job (owner : String) (nodes : UInt16) (memory_per_node : UInt64) (priority : JobPriority)
      (now_us : UInt64)
  | cancel_job (job_id now_us : UInt64)
  | complete_job (job_id : UInt64) (success : Bool) (now_us : UInt64)
  | tick (order : List JobDescriptor) (now_us : UInt64 → UInt64)

/-- The calls on the scheduler do not take `state_mu_`. -/
inductive Step : ClusterManager → Event → ClusterManager → Prop where
  | join {m : ClusterManager} (h : m.blocked = false) (info : NodeInfo) (now_us : UInt64) :
      Step m (.join info now_us) (m.handle_join info now_us)
  | leave {m : ClusterManager} (h : m.blocked = false) (node_id : NodeId) :
      Step m (.leave node_id) (m.handle_leave node_id)
  | heartbeat {m : ClusterManager} (h : m.blocked = false) (info : NodeInfo) (now_us : UInt64) :
      Step m (.heartbeat info now_us) (m.handle_heartbeat info now_us)
  | failure {m : ClusterManager} (h : m.blocked = false) (node_id : NodeId) (now_us : UInt64 → UInt64) :
      Step m (.failure node_id now_us) (m.handle_node_failure node_id now_us)
  | submit_job (m : ClusterManager) (owner : String) (nodes : UInt16) (memory_per_node : UInt64)
      (priority : JobPriority) (now_us : UInt64) :
      Step m (.submit_job owner nodes memory_per_node priority now_us)
        { m with
          scheduler_ := (m.scheduler_.submit
            { owner := owner
              requested_nodes := nodes
              memory_per_node := memory_per_node
              priority := priority } now_us).2 }
  | cancel_job (m : ClusterManager) (job_id now_us : UInt64) :
      Step m (.cancel_job job_id now_us) { m with scheduler_ := (m.scheduler_.cancel job_id now_us).2 }
  | complete_job (m : ClusterManager) (job_id : UInt64) (success : Bool) (now_us : UInt64) :
      Step m (.complete_job job_id success now_us)
        { m with scheduler_ := (m.scheduler_.complete job_id success now_us).2 }
  | tick {m : ClusterManager} (h : m.blocked = false) {order : List JobDescriptor}
      (horder : Scheduler.SortOf m.scheduler_.queue_ order) (now_us : UInt64 → UInt64) :
      Step m (.tick order now_us) (m.scheduler_tick order now_us)

/-- The manager of node `me`. -/
def cluster (me : NodeId) (memory_per_node : UInt64) : System ClusterManager Event :=
  ⟨fun m => m = .new me memory_per_node, Step⟩

/-! ## Membership -/

section Membership

variable {st st' : ClusterState} {i : NodeId}

theorem mem_online : i ∈ st.online ↔ (st.nodes i).status = .ONLINE := by simp [online]

theorem online_congr (h : st'.nodes = st.nodes) : st'.online = st.online := by simp only [online, h]

theorem nodes_elect_leader (self : NodeId) (st : ClusterState) : (elect_leader self st).nodes = st.nodes := by
  unfold elect_leader
  split <;> rfl

theorem online_elect_leader (self : NodeId) (st : ClusterState) : (elect_leader self st).online = st.online :=
  online_congr (nodes_elect_leader self st)

theorem count_elect_leader (self : NodeId) (st : ClusterState) :
    (elect_leader self st).online_count = st.online_count := by
  unfold elect_leader
  split <;> rfl

theorem version_elect_leader (self : NodeId) (st : ClusterState) : (elect_leader self st).version = st.version := by
  unfold elect_leader
  split <;> rfl

theorem online_setNode_online {info : NodeInfo} (h : info.status = .ONLINE) :
    (st.setNode i info).online = insert i st.online := by
  ext j
  rw [mem_online, Finset.mem_insert, mem_online, setNode]
  by_cases hj : j = i
  · simp [hj, h]
  · simp [hj]

theorem online_setNode_other {info : NodeInfo} (h : info.status ≠ .ONLINE) :
    (st.setNode i info).online = st.online.erase i := by
  ext j
  rw [mem_online, Finset.mem_erase, mem_online, setNode]
  by_cases hj : j = i
  · simp [hj, h]
  · simp [hj]

/-- `online_count` is the number of online nodes. -/
def Counted (st : ClusterState) : Prop := st.online_count = st.online.card

/-- A call that leads from `st` to `st'` keeps the books: the count is right, and
    the version has grown if the online nodes have changed. -/
def Tracked (st st' : ClusterState) : Prop :=
  Counted st' ∧ (st'.online ≠ st.online → st.version < st'.version)

theorem lt_succ_iff (v : UInt64) : v < v + 1 ↔ v + 1 ≠ 0 := by
  rw [UInt64.lt_iff_toNat_lt, ne_eq, ← UInt64.toNat_inj, UInt64.toNat_add]
  have hlt := v.toNat_lt
  change v.toNat < (v.toNat + 1) % 2 ^ 64 ↔ ¬(v.toNat + 1) % 2 ^ 64 = 0
  omega

theorem counted_insert (h : Counted st) (ho : st'.online = insert i st.online) :
    Counted st' ↔ st'.online_count = st.online_count + if i ∈ st.online then 0 else 1 := by
  unfold Counted at *
  rw [ho, h]
  by_cases hi : i ∈ st.online
  · simp [hi]
  · simp [hi]

theorem counted_erase (h : Counted st) (ho : st'.online = st.online.erase i) :
    Counted st' ↔ st'.online_count = st.online_count - if i ∈ st.online then 1 else 0 := by
  unfold Counted at *
  rw [ho, h]
  by_cases hi : i ∈ st.online
  · have hcard := Finset.card_erase_add_one hi
    simp only [hi, if_true]
    omega
  · simp [hi]

/-- A node comes online and the count and the version go up. -/
theorem tracked_gain (h : Counted st) (ho : st'.online = insert i st.online)
    (hc : st'.online_count = st.online_count + 1) (hv : st'.version = st.version + 1) :
    Tracked st st' ↔ i ∉ st.online ∧ st.version + 1 ≠ 0 := by
  unfold Tracked
  rw [counted_insert h ho, hc, hv, ho, lt_succ_iff]
  by_cases hi : i ∈ st.online
  · simp [hi]
  · simp [hi]

/-- A node is marked offline and the count goes down, the version up. -/
theorem tracked_loss (h : Counted st) (ho : st'.online = st.online.erase i)
    (hc : st'.online_count = st.online_count + -1) (hv : st'.version = st.version + 1) :
    Tracked st st' ↔ i ∈ st.online ∧ st.version + 1 ≠ 0 := by
  unfold Tracked
  rw [counted_erase h ho, hc, hv, ho, lt_succ_iff]
  by_cases hi : i ∈ st.online
  · simp [hi, ← sub_eq_add_neg]
  · simp [hi]

theorem tracked_same (h : Counted st) (ho : st'.online = st.online) (hc : st'.online_count = st.online_count) :
    Tracked st st' := by
  refine ⟨?_, fun hne => absurd ho hne⟩
  unfold Counted at *
  rw [ho, hc, h]

end Membership

/-- The calls that the handlers account for: a node joins that is not online, a
    node leaves that is online or offline, the heartbeat is not that of an unknown
    node, the node that fails is online. -/
def Accounted (m : ClusterManager) : Event → Prop
  | .join info _ => (m.state_.nodes info.node_id).status ≠ .ONLINE ∧ m.state_.version + 1 ≠ 0
  | .leave n =>
    (m.state_.nodes n).status = .OFFLINE ∨
      (m.state_.nodes n).status = .ONLINE ∧ m.state_.version + 1 ≠ 0
  | .heartbeat info _ =>
    (m.state_.nodes info.node_id).status = .ONLINE ∨
      (m.state_.nodes info.node_id).status ≠ .UNKNOWN ∧ m.state_.version + 1 ≠ 0
  | .failure n _ => (m.state_.nodes n).status = .ONLINE ∧ m.state_.version + 1 ≠ 0
  | _ => True

variable {m m' : ClusterManager} {e : Event} {st : ClusterState} {i : NodeId}

theorem tracked_join (h : Counted m.state_) (info : NodeInfo) (now_us : UInt64) :
    Tracked m.state_ (m.handle_join info now_us).state_ ↔ Accounted m (.join info now_us) := by
  rw [tracked_gain h (i := info.node_id)]
  · exact and_congr_left fun _ => not_congr mem_online
  · rw [handle_join, online_elect_leader]
    exact online_setNode_online rfl
  · exact count_elect_leader ..
  · exact version_elect_leader ..

theorem tracked_leave (h : Counted m.state_) (n : NodeId) :
    Tracked m.state_ (m.handle_leave n).state_ ↔ Accounted m (.leave n) := by
  unfold handle_leave
  split
  · -- a second leave changes nothing
    rename_i hoff
    exact iff_of_true (tracked_same h rfl rfl) (.inl hoff)
  · rename_i hoff
    rw [tracked_loss h (i := n)]
    · rw [mem_online]
      exact ⟨.inr, fun hacc => hacc.resolve_left hoff⟩
    · rw [online_elect_leader]
      exact online_setNode_other NodeStatus.noConfusion
    · exact count_elect_leader ..
    · exact version_elect_leader ..

/-- A heartbeat puts the node online; the count and the version follow only if
    the node was known and not online. -/
theorem heartbeat_cases (m : ClusterManager) (info : NodeInfo) (now_us : UInt64) :
    ∃ entry : NodeInfo, entry.status = .ONLINE ∧
      (m.handle_heartbeat info now_us).state_ =
        if (m.state_.nodes info.node_id).status = .UNKNOWN ∨ (m.state_.nodes info.node_id).status = .ONLINE then
          m.state_.setNode info.node_id entry
        else (m.state_.setNode info.node_id entry).bump 1 := by
  cases hst : (m.state_.nodes info.node_id).status with
  | UNKNOWN | ONLINE | DEGRADED | OFFLINE => exact ⟨_, rfl, by simp [handle_heartbeat, hst]; rfl⟩

theorem tracked_heartbeat (h : Counted m.state_) (info : NodeInfo) (now_us : UInt64) :
    Tracked m.state_ (m.handle_heartbeat info now_us).state_ ↔ Accounted m (.heartbeat info now_us) := by
  obtain ⟨entry, hentry, heq⟩ := heartbeat_cases m info now_us
  have ho : (m.state_.setNode info.node_id entry).online = insert info.node_id m.state_.online :=
    online_setNode_online hentry
  unfold Accounted
  rw [heq]
  by_cases hon : (m.state_.nodes info.node_id).status = .ONLINE
  · rw [if_pos (.inr hon)]
    rw [Finset.insert_eq_self.mpr (mem_online.mpr hon)] at ho
    exact iff_of_true (tracked_same h ho rfl) (.inl hon)
  by_cases hun : (m.state_.nodes info.node_id).status = .UNKNOWN
  · -- the node is online now, but it has not been counted
    rw [if_pos (.inl hun)]
    refine iff_of_false ?_ (by simp [hun])
    rintro ⟨hcount, -⟩
    rw [counted_insert h ho, if_neg (mt mem_online.mp hon)] at hcount
    change m.state_.online_count = m.state_.online_count + 1 at hcount
    omega
  · rw [if_neg (not_or.mpr ⟨hun, hon⟩)]
    have hbump : ((m.state_.setNode info.node_id entry).bump 1).online = insert info.node_id m.state_.online := ho
    rw [tracked_gain h hbump rfl rfl, mem_online]
    simp [hon, hun]

theorem failure_state (m : ClusterManager) (n : NodeId) (now_us : UInt64 → UInt64) :
    ∃ entry : NodeInfo, entry.status = .OFFLINE ∧
      (m.handle_node_failure n now_us).state_ =
        if m.state_.leader_id = m.node_id_ then elect_leader m.node_id_ ((m.state_.setNode n entry).bump (-1))
        else (m.state_.setNode n entry).bump (-1) :=
  ⟨_, rfl, rfl⟩

theorem tracked_failure (h : Counted m.state_) (n : NodeId) (now_us : UInt64 → UInt64) :
    Tracked m.state_ (m.handle_node_failure n now_us).state_ ↔ Accounted m (.failure n now_us) := by
  obtain ⟨entry, hentry, heq⟩ := failure_state m n now_us
  have ho : (m.state_.setNode n entry).online = m.state_.online.erase n :=
    online_setNode_other (hentry ▸ NodeStatus.noConfusion)
  show _ ↔ (m.state_.nodes n).status = .ONLINE ∧ m.state_.version + 1 ≠ 0
  rw [heq, ← mem_online]
  split
  · refine tracked_loss h ?_ (count_elect_leader ..) (version_elect_leader ..)
    rw [online_elect_leader]
    exact ho
  · exact tracked_loss h ho rfl rfl

/-- What each step does to the books, from a state in which they are right. -/
theorem tracked_step (h : Counted m.state_) (hs : Step m e m') :
    Tracked m.state_ m'.state_ ↔ Accounted m e := by
  cases hs with
  | join _ info now_us => exact tracked_join h info now_us
  | leave _ n => exact tracked_leave h n
  | heartbeat _ info now_us => exact tracked_heartbeat h info now_us
  | failure _ n now_us => exact tracked_failure h n now_us
  | submit_job | cancel_job | complete_job | tick =>
    exact iff_of_true (tracked_same h rfl rfl) trivial

theorem counted_new (me : NodeId) (memory_per_node : UInt64) : Counted (new me memory_per_node).state_ := by
  unfold Counted
  have honline : (new me memory_per_node).state_.online = {me} := by
    ext j
    rw [mem_online, Finset.mem_singleton, new]
    by_cases hj : j = me
    · simp [hj]
    · simp [hj]
  rw [honline, Finset.card_singleton]
  rfl

theorem counted_of_reach {me : NodeId} {memory_per_node : UInt64}
    (h : (cluster me memory_per_node).Reach Accounted m) : Counted m.state_ := by
  refine h.invariant (I := fun m => Counted m.state_) ?_ ?_
  · rintro m rfl
    exact counted_new me memory_per_node
  · intro m e m' hm hok hs
    exact ((tracked_step hm hs).mpr hok).1

/-- **Membership bookkeeping**: along runs of accounted calls `online_count` is the
    number of online nodes, and the next call keeps the count and moves the version
    with the membership exactly if it is accounted for as well. -/
theorem membership_exact {me : NodeId} {memory_per_node : UInt64} {m : ClusterManager}
    (h : (cluster me memory_per_node).Reach Accounted m) :
    Counted m.state_ ∧ ∀ e m', Step m e m' → (Tracked m.state_ m'.state_ ↔ Accounted m e) :=
  ⟨counted_of_reach h, fun _ _ hs => tracked_step (counted_of_reach h) hs⟩

/-- Node 1 joins the manager of node 0 and goes again. -/
theorem membership_join_leave : ∃ m, (cluster 0 0).Reach Accounted m ∧ m.state_.online_count = 1 ∧
    m.state_.version = 2 ∧ Counted m.state_ := by
  have hinit : (cluster 0 0).Reach Accounted _ := .init rfl
  have hjoin := hinit.next (.join rfl { node_id := 1 } 5) ⟨by decide, by decide⟩
  have hleave := hjoin.next (.leave rfl 1) (.inr ⟨by decide, by decide⟩)
  exact ⟨_, hleave, rfl, rfl, (membership_exact hleave).1⟩

/-- A node that joins twice is counted twice. -/
theorem join_counts_twice : ∃ m, (cluster 0 0).Reachable m ∧ m.state_.online.card = 2 ∧
    m.state_.online_count = 3 := by
  have hinit : (cluster 0 0).Reachable _ := .init rfl
  have hjoin := hinit.next (.join rfl { node_id := 1 } 5)
  have hagain := hjoin.next (.join rfl { node_id := 1 } 6)
  exact ⟨_, hagain, by decide, rfl⟩

/-! ## The Leader -/

/-- If any node is online, the leader is the lowest of them. -/
def Lowest (st : ClusterState) : Prop :=
  ∀ i, (st.nodes i).status = .ONLINE → (st.nodes st.leader_id).status = .ONLINE ∧ st.leader_id ≤ i

theorem lowest_elect_leader (self : NodeId) (st : ClusterState) : Lowest (elect_leader self st) := by
  intro i hi
  rw [nodes_elect_leader] at hi ⊢
  unfold elect_leader
  cases hfind : (List.finRange MAX_CLUSTER_NODES).find? fun i => (st.nodes i).status = .ONLINE with
  | none =>
    have hno := List.find?_eq_none.mp hfind i (List.mem_finRange i)
    exact absurd (decide_eq_true hi) hno
  | some l =>
    obtain ⟨hl, k, hk, heq, hbefore⟩ := List.find?_eq_some_iff_getElem.mp hfind
    refine ⟨of_decide_eq_true hl, ?_⟩
    -- the scan has passed every lower node
    by_contra hlt
    have hik : i.val < k := by
      have hval : k = l.val := by rw [← heq, List.getElem_finRange]; rfl
      rw [hval]
      exact Nat.lt_of_not_le hlt
    have hno := hbefore i.val hik
    rw [List.getElem_finRange] at hno
    simp [hi] at hno

/-- The calls after which the leader is known to be right: a node that comes online
    by a heartbeat is the leader or follows it, and the leader fails only on its own
    manager or as the last node. -/
def Elects (m : ClusterManager) : Event → Prop
  | .heartbeat info _ =>
    (m.state_.nodes info.node_id).status = .ONLINE ∨ m.state_.leader_id = info.node_id ∨
      (m.state_.nodes m.state_.leader_id).status = .ONLINE ∧ m.state_.leader_id < info.node_id
  | .failure n _ =>
    m.state_.leader_id = m.node_id_ ∨ n ≠ m.state_.leader_id ∨
      ∀ k, k ≠ n → (m.state_.nodes k).status ≠ .ONLINE
  | _ => True

theorem status_setNode {info : NodeInfo} (j : NodeId) :
    ((st.setNode i info).nodes j).status = if j = i then info.status else (st.nodes j).status := by
  unfold setNode
  by_cases hj : j = i
  · simp [hj]
  · simp [hj]

/-- Another node comes online and nobody elects. -/
theorem lowest_gain {st' : ClusterState} (h : Lowest st)
    (hst : ∀ j, (st'.nodes j).status = if j = i then .ONLINE else (st.nodes j).status)
    (hl : st'.leader_id = st.leader_id) :
    Lowest st' ↔ st.leader_id = i ∨ (st.nodes st.leader_id).status = .ONLINE ∧ st.leader_id < i := by
  unfold Lowest
  rw [hl]
  constructor
  · intro hlow
    obtain ⟨hon, hle⟩ := hlow i (by rw [hst, if_pos rfl])
    by_cases heq : st.leader_id = i
    · exact .inl heq
    · rw [hst, if_neg heq] at hon
      exact .inr ⟨hon, lt_of_le_of_ne hle heq⟩
  · -- the new node does not pass the leader, and the others did not before
    intro hlead j hj
    rw [hst] at hj ⊢
    by_cases heq : st.leader_id = i
    · rw [if_pos heq]
      refine ⟨rfl, ?_⟩
      by_cases hji : j = i
      · exact le_of_eq (heq.trans hji.symm)
      · rw [if_neg hji] at hj
        exact (h j hj).2
    · obtain ⟨hon, hlt⟩ := hlead.resolve_left heq
      rw [if_neg heq]
      refine ⟨hon, ?_⟩
      by_cases hji : j = i
      · exact le_of_lt (hji ▸ hlt)
      · rw [if_neg hji] at hj
        exact (h j hj).2

/-- A node goes offline and nobody elects. -/
theorem lowest_loss {st' : ClusterState} (h : Lowest st)
    (hst : ∀ j, (st'.nodes j).status = if j = i then .OFFLINE else (st.nodes j).status)
    (hl : st'.leader_id = st.leader_id) :
    Lowest st' ↔ i ≠ st.leader_id ∨ ∀ k, k ≠ i → (st.nodes k).status ≠ .ONLINE := by
  unfold Lowest
  rw [hl]
  constructor
  · intro hlow
    by_cases heq : i = st.leader_id
    · -- the leader is offline now, so `Lowest` can hold only with nobody online
      right
      intro k hk hon
      obtain ⟨hlead, -⟩ := hlow k (by rw [hst, if_neg hk]; exact hon)
      rw [hst, if_pos heq.symm] at hlead
      cases hlead
    · exact .inl heq
  · intro hcond j hj
    rw [hst] at hj
    split at hj
    · cases hj
    · rename_i hji
      have hne := hcond.resolve_right fun hnone => hnone j hji hj
      rw [hst, if_neg hne.symm]
      exact h j hj

theorem lowest_heartbeat (h : Lowest m.state_) (info : NodeInfo) (now_us : UInt64) :
    Lowest (m.handle_heartbeat info now_us).state_ ↔ Elects m (.heartbeat info now_us) := by
  obtain ⟨entry, hentry, heq⟩ := heartbeat_cases m info now_us
  have hst : ∀ j, ((m.handle_heartbeat info now_us).state_.nodes j).status =
      if j = info.node_id then .ONLINE else (m.state_.nodes j).status := by
    intro j
    rw [heq, ← hentry]
    split <;> exact status_setNode j
  have hl : (m.handle_heartbeat info now_us).state_.leader_id = m.state_.leader_id := by
    rw [heq]
    split <;> rfl
  by_cases hon : (m.state_.nodes info.node_id).status = .ONLINE
  · refine iff_of_true ?_ (.inl hon)
    have hsame : ∀ j, ((m.handle_heartbeat info now_us).state_.nodes j).status = (m.state_.nodes j).status := by
      intro j
      rw [hst]
      split
      · rename_i hj
        rw [hj, hon]
      · rfl
    intro i hi
    rw [hl, hsame]
    exact h i (hsame i ▸ hi)
  · rw [lowest_gain h hst hl]
    exact ⟨.inr, fun hok => hok.resolve_left hon⟩

theorem lowest_failure (h : Lowest m.state_) (n : NodeId) (now_us : UInt64 → UInt64) :
    Lowest (m.handle_node_failure n now_us).state_ ↔ Elects m (.failure n now_us) := by
  obtain ⟨entry, hentry, heq⟩ := failure_state m n now_us
  rw [heq]
  split
  · -- the leader itself runs the election
    rename_i hself
    exact iff_of_true (lowest_elect_leader _ _) (.inl hself)
  · rename_i hself
    have hst : ∀ j, (((m.state_.setNode n entry).bump (-1)).nodes j).status =
        if j = n then .OFFLINE else (m.state_.nodes j).status := by
      intro j
      rw [← hentry]
      exact status_setNode j
    rw [lowest_loss h hst rfl]
    exact ⟨.inr, fun hok => hok.resolve_left hself⟩

theorem lowest_step (h : Lowest m.state_) (hs : Step m e m') :
    Lowest m'.state_ ↔ Elects m e := by
  cases hs with
  | join _ info now_us => exact iff_of_true (lowest_elect_leader _ _) trivial
  | leave _ n =>
    refine iff_of_true ?_ trivial
    unfold handle_leave
    split
    · exact h
    · exact lowest_elect_leader _ _
  | heartbeat _ info now_us => exact lowest_heartbeat h info now_us
  | failure _ n now_us => exact lowest_failure h n now_us
  | submit_job | cancel_job | complete_job | tick => exact iff_of_true h trivial

theorem lowest_new (me : NodeId) (memory_per_node : UInt64) : Lowest (new me memory_per_node).state_ := by
  intro i hi
  have hself : i = me := by
    by_contra hne
    simp [new, hne] at hi
  subst hself
  exact ⟨hi, le_refl _⟩

theorem lowest_of_reach {me : NodeId} {memory_per_node : UInt64}
    (h : (cluster me memory_per_node).Reach Elects m) : Lowest m.state_ := by
  refine h.invariant (I := fun m => Lowest m.state_) ?_ ?_
  · rintro m rfl
    exact lowest_new me memory_per_node
  · intro m e m' hm hok hs
    exact (lowest_step hm hs).mpr hok

/-- **The leader** is the lowest online node along runs of such calls, and stays it
    in the next call exactly if that is one as well. -/
theorem leader_exact {me : NodeId} {memory_per_node : UInt64} {m : ClusterManager}
    (h : (cluster me memory_per_node).Reach Elects m) :
    Lowest m.state_ ∧ ∀ e m', Step m e m' → (Lowest m'.state_ ↔ Elects m e) :=
  ⟨lowest_of_reach h, fun _ _ hs => lowest_step (lowest_of_reach h) hs⟩

/-- Node 0 joins the manager of node 1 and leads. -/
theorem leader_after_join : ∃ m, (cluster 1 0).Reach Elects m ∧ m.state_.leader_id = 0 ∧ Lowest m.state_ := by
  have hinit : (cluster 1 0).Reach Elects _ := .init rfl
  have hjoin := hinit.next (.join rfl { node_id := 0 } 5)
  exact ⟨_, hjoin, by decide, (leader_exact hjoin).1⟩

/-- Node 0 joins the manager of node 1 and fails; it remains the leader. -/
theorem failed_leader_stays : ∃ m, (cluster 1 0).Reachable m ∧ (m.state_.nodes 1).status = .ONLINE ∧
    m.state_.leader_id = 0 ∧ (m.state_.nodes 0).status = .OFFLINE := by
  have hinit : (cluster 1 0).Reachable _ := .init rfl
  have hjoin := hinit.next (.join rfl { node_id := 0 } 5)
  have hfail := hjoin.next (.failure rfl 0 fun _ => 6)
  exact ⟨_, hfail, by decide, by decide, by decide⟩

/-! ## Reserved Memory across Ticks -/

theorem nodup_online_nodes (st : ClusterState) : (online_nodes st).Nodup := by
  refine List.Nodup.map ?_ ((List.nodup_finRange _).filter _)
  intro i j hij
  have hnat := congrArg UInt16.toNat hij
  simp only [UInt16.toNat_ofNat'] at hnat
  have hi := i.isLt
  have hj := j.isLt
  unfold MAX_CLUSTER_NODES at hi hj
  apply Fin.ext
  omega

/-- At a tick the memory that the online nodes report as used is at least what the
    active jobs have reserved there, and the sums do not wrap. -/
def Reported (m : ClusterManager) : Event → Prop
  | .tick _ _ =>
    Scheduler.Covers (online_nodes m.state_) (node_loads m.state_)
      (fun n => Scheduler.reserved n m.scheduler_.active_) ∧
    ∀ j ∈ m.scheduler_.queue_, Scheduler.Safe m.scheduler_.config_ (node_loads m.state_) j
  | _ => True

/-- No node has more reserved than the configured memory. -/
def Fits (s : Scheduler) : Prop := ∀ n, Scheduler.reserved n s.active_ ≤ s.config_.memory_per_node.toNat

theorem Fits.mono {s s' : Scheduler} (h : Fits s) (hconfig : s'.config_ = s.config_)
    (hle : ∀ n, Scheduler.reserved n s'.active_ ≤ Scheduler.reserved n s.active_) : Fits s' := by
  intro n
  rw [hconfig]
  exact Nat.le_trans (hle n) (h n)

theorem fits_step (h : Fits m.scheduler_) (hok : Reported m e)
    (hs : Step m e m') : Fits m'.scheduler_ := by
  cases hs with
  | join _ info now_us => exact h
  | leave _ n =>
    unfold handle_leave
    split <;> exact h
  | heartbeat _ info now_us =>
    simp only [handle_heartbeat]
    repeat' split
    all_goals exact h
  | failure _ n now_us =>
    exact h.mono (Scheduler.evict_node_config ..) fun _ => Scheduler.reserved_sublist (Scheduler.evict_node_sublist ..)
  | submit_job => exact h
  | cancel_job id now_us =>
    simp only [Scheduler.cancel]
    split
    · exact h
    · split
      · rename_i htake
        exact h.mono rfl fun _ => Scheduler.reserved_takeJob htake
      · exact h
  | complete_job id success now_us =>
    simp only [Scheduler.complete]
    split
    · exact h
    · rename_i htake
      exact h.mono rfl fun _ => Scheduler.reserved_takeJob htake
  -- the only call that reserves memory
  | tick _ horder now_us =>
    obtain ⟨hcovers, hsafe⟩ := hok
    intro n
    unfold scheduler_tick
    rw [Scheduler.schedule_tick_config]
    exact Scheduler.schedule_tick_reserved horder hsafe hcovers h now_us n

/-- **No node is overcommitted** in runs in which every tick is told of at least the
    memory that the active jobs have reserved. -/
theorem not_overcommitted {me : NodeId} {memory_per_node : UInt64} {m : ClusterManager}
    (h : (cluster me memory_per_node).Reach Reported m) (n : UInt16) :
    Scheduler.reserved n m.scheduler_.active_ ≤ m.scheduler_.config_.memory_per_node.toNat := by
  refine h.invariant (I := fun m => Fits m.scheduler_) ?_ (fun _ _ _ => fits_step) n
  rintro m rfl n
  exact Nat.zero_le _

/-- At the first tick nothing is reserved. -/
theorem not_overcommitted_first : ∃ m, (cluster 0 8).Reach Reported m ∧
    Scheduler.reserved 0 m.scheduler_.active_ = 6 ∧ 6 ≤ m.scheduler_.config_.memory_per_node.toNat := by
  have hinit : (cluster 0 8).Reach Reported _ := .init rfl
  have hsubmit := hinit.next (.submit_job _ "a" 1 6 .NORMAL 1)
  have htick := hsubmit.step
    (by exact ⟨fun _ _ _ _ => Nat.zero_le _, List.forall_mem_singleton.mpr ⟨by decide, by decide⟩⟩)
    (Step.tick rfl ⟨.refl _, List.pairwise_singleton ..⟩ fun _ => 2)
  exact ⟨_, htick, rfl, not_overcommitted htick 0⟩

/-- Two jobs that need the whole node are started in two ticks: the reservation of
    the first is not in what the node reports. -/
theorem tick_overcommits : ∃ m, (cluster 0 8).Reachable m ∧
    m.scheduler_.config_.memory_per_node = 8 ∧ Scheduler.reserved 0 m.scheduler_.active_ = 16 := by
  have hinit : (cluster 0 8).Reachable _ := .init rfl
  have hfirst := hinit.next (.submit_job _ "a" 1 8 .NORMAL 1)
  have htick := hfirst.next (.tick rfl ⟨.refl _, List.pairwise_singleton ..⟩ fun _ => 2)
  have hsecond := htick.next (.submit_job _ "b" 1 8 .NORMAL 3)
  have hagain := hsecond.next (.tick rfl ⟨.refl _, List.pairwise_singleton ..⟩ fun _ => 4)
  exact ⟨_, hagain, rfl, rfl⟩

end ClusterManager

end Mccl
