import Mccl.Runtime.ClusterManager
import Mccl.Runtime.Preemption

/-! # What a Tick Allocates

    The first loop of `Scheduler::schedule_tick` asks `can_allocate` and lets
    `allocate` pick the nodes in a loop of its own.

    * On distinct nodes the loads that `allocate` has changed are never looked at
      again for the same job, so that the nodes it takes are those that
      `can_allocate` has counted (`allocateLoop_eq`).
    * `tick_grants`: every job that the loop starts gets the nodes it has asked
      for, and the loads of the tick account for all of them.
    * The test is a sum of 64-bit integers, and a request may be so large that the
      sum wraps. `tick_within_memory_iff`: exactly such requests let a tick put
      more on a node than the node has. -/

namespace Mccl.Scheduler

/-! ## One Job -/

section Job

variable {config : Config} {job : JobDescriptor} {loads : List NodeLoad} {nodes : List UInt16}

/-- The node has an entry in the loads and passes the test. -/
def hasRoom (config : Config) (job : JobDescriptor) (loads : List NodeLoad) (nid : UInt16) : Bool :=
  (loads[nid.toNat]?).any (fits config job)

/-- The loads after the job has been put on the given nodes. -/
def reserveOn (job : JobDescriptor) : List UInt16 → List NodeLoad → List NodeLoad
  | [], loads => loads
  | nid :: rest, loads => reserveOn job rest (loads.modify nid.toNat (NodeLoad.reserve job))

theorem getElem?_modify_reserve (job : JobDescriptor) (loads : List NodeLoad) (n nid : UInt16) :
    (loads.modify n.toNat (NodeLoad.reserve job))[nid.toNat]? =
      (loads[nid.toNat]?).map fun load => if n = nid then NodeLoad.reserve job load else load := by
  rw [List.getElem?_modify]
  by_cases h : n = nid
  · simp [h]
  · have hne : ¬n.toNat = nid.toNat := fun heq => h (UInt16.toNat_inj.mp heq)
    simp [h, hne]

/-- Every node counts the job once. -/
theorem getElem?_reserveOn (hnodes : nodes.Nodup) (nid : UInt16) :
    (reserveOn job nodes loads)[nid.toNat]? =
      (loads[nid.toNat]?).map fun load => if nid ∈ nodes then NodeLoad.reserve job load else load := by
  induction nodes generalizing loads with
  | nil => simp [reserveOn]
  | cons n rest ih =>
    obtain ⟨hn, hrest⟩ := List.nodup_cons.mp hnodes
    rw [reserveOn, ih hrest, getElem?_modify_reserve, Option.map_map]
    congr 1
    funext load
    by_cases h : n = nid
    · subst h
      simp [hn]
    · simp [h, Ne.symm h]

theorem hasRoom_modify {n nid : UInt16} (hne : n ≠ nid) :
    hasRoom config job (loads.modify n.toNat (NodeLoad.reserve job)) nid = hasRoom config job loads nid := by
  unfold hasRoom
  rw [getElem?_modify_reserve]
  simp [hne]

theorem allocateLoop_eq (hnodes : nodes.Nodup) (assigned : List UInt16) :
    allocateLoop config job nodes assigned loads =
      let taken := (nodes.filter (hasRoom config job loads)).take (job.requested_nodes.toNat - assigned.length)
      (assigned ++ taken, reserveOn job taken loads) := by
  induction nodes generalizing assigned loads with
  | nil => simp [allocateLoop, reserveOn]
  | cons nid rest ih =>
    obtain ⟨hnid, hrest⟩ := List.nodup_cons.mp hnodes
    rw [allocateLoop]
    split
    case isTrue hfull => simp [Nat.sub_eq_zero_of_le hfull, reserveOn]
    case isFalse hmore =>
      split
      case h_1 hnone =>
        have hno : hasRoom config job loads nid = false := by simp [hasRoom, hnone]
        rw [ih hrest, List.filter_cons_of_neg (by simp [hno])]
      case h_2 load hload =>
        have hroom : hasRoom config job loads nid = fits config job load := by simp [hasRoom, hload]
        split
        case isTrue hfits =>
          have hset : loads.set nid.toNat (NodeLoad.reserve job load) =
              loads.modify nid.toNat (NodeLoad.reserve job) := by
            rw [List.modify_eq_set_getElem?, hload]
            rfl
          -- the rest of the nodes sees the loads of before
          have hsame : rest.filter (hasRoom config job (loads.modify nid.toNat (NodeLoad.reserve job))) =
              rest.filter (hasRoom config job loads) := by
            apply List.filter_congr
            intro n hn
            exact hasRoom_modify fun heq => hnid (heq ▸ hn)
          have hleft : job.requested_nodes.toNat - assigned.length =
              job.requested_nodes.toNat - (assigned ++ [nid]).length + 1 := by
            rw [List.length_append, List.length_singleton]
            omega
          rw [hset, ih hrest, hsame, List.filter_cons_of_pos (hroom.trans hfits), hleft, List.take_succ_cons]
          simp [reserveOn]
        case isFalse hfits => rw [ih hrest, List.filter_cons_of_neg (by simp [hroom, hfits])]

/-- The nodes that `allocate` gives the job. -/
def granted (config : Config) (job : JobDescriptor) (online : List UInt16) (loads : List NodeLoad) : List UInt16 :=
  (online.filter (hasRoom config job loads)).take job.requested_nodes.toNat

theorem allocate_eq {online : List UInt16} (honline : online.Nodup) :
    allocate config job online loads =
      ({ job with assigned_nodes := granted config job online loads },
        reserveOn job (granted config job online loads) loads) := by
  rw [allocate, allocateLoop_eq honline]
  simp [granted]

/-- The job has as many nodes as it asked for. They are distinct and online, and
    the job passes the test on each of them under the given loads. -/
structure Granted (config : Config) (online : List UInt16) (loads : List NodeLoad) (job : JobDescriptor) : Prop where
  count : job.assigned_nodes.length = job.requested_nodes.toNat
  distinct : job.assigned_nodes.Nodup
  online : ∀ nid ∈ job.assigned_nodes, nid ∈ online
  fits : ∀ nid ∈ job.assigned_nodes, ∃ load, loads[nid.toNat]? = some load ∧ fits config job load = true

theorem Granted.allocate {online : List UInt16} (honline : online.Nodup)
    (hcan : can_allocate config job online loads = true) (now_us : UInt64) :
    Granted config online loads (markRunning (allocate config job online loads).1 now_us) := by
  rw [allocate_eq honline]
  have hsub : (granted config job online loads).Sublist (online.filter (hasRoom config job loads)) :=
    List.take_sublist ..
  constructor
  · show (granted config job online loads).length = job.requested_nodes.toNat
    rw [granted, List.length_take, ← List.countP_eq_length_filter]
    exact Nat.min_eq_left (of_decide_eq_true hcan)
  · exact (honline.filter _).sublist hsub
  · intro nid hnid
    exact (List.mem_filter.mp (hsub.subset hnid)).1
  · intro nid hnid
    exact (Option.any_eq_true ..).mp (List.mem_filter.mp (hsub.subset hnid)).2

end Job

/-! ## The Loop -/

/-- The load of a node on which the given jobs have been started. -/
def charged (started : List JobDescriptor) (nid : UInt16) (load : NodeLoad) : NodeLoad where
  memory_used := UInt64.ofNat (load.memory_used.toNat + reserved nid started)
  active_jobs := load.active_jobs + started.countP fun j => nid ∈ j.assigned_nodes

theorem charged_nil (nid : UInt16) (load : NodeLoad) : charged [] nid load = load := by simp [charged]

theorem charged_cons (job : JobDescriptor) (started : List JobDescriptor) (nid : UInt16) (load : NodeLoad) :
    charged (job :: started) nid load =
      charged started nid (if nid ∈ job.assigned_nodes then NodeLoad.reserve job load else load) := by
  unfold charged
  rw [reserved_cons, List.countP_cons]
  by_cases h : nid ∈ job.assigned_nodes
  · have hmem : UInt64.ofNat (load.memory_used.toNat + (job.memory_per_node.toNat + reserved nid started)) =
        UInt64.ofNat ((load.memory_used + job.memory_per_node).toNat + reserved nid started) := by
      rw [← UInt64.toNat_inj, UInt64.toNat_ofNat', UInt64.toNat_ofNat', UInt64.toNat_add]
      omega
    simp only [h, if_true, decide_true, NodeLoad.reserve, hmem, NodeLoad.mk.injEq, true_and]
    omega
  · simp [h]

section Loop

variable (config : Config) (online : List UInt16) (now_us : UInt64 → UInt64)

/-- The jobs that the first loop starts, each with the loads under which `allocate`
    was called for it. -/
def grants : List JobDescriptor → List NodeLoad → List (List NodeLoad × JobDescriptor)
  | [], _ => []
  | job :: rest, loads =>
    if can_allocate config job online loads then
      let r := allocate config job online loads
      (loads, markRunning r.1 (now_us job.job_id)) :: grants rest r.2
    else grants rest loads

variable {config online now_us}

theorem grants_started (queue : List JobDescriptor) (loads : List NodeLoad) :
    (grants config online now_us queue loads).map Prod.snd = (startLoop config online now_us queue loads).started := by
  induction queue generalizing loads with
  | nil => rfl
  | cons job rest ih =>
    rw [grants, startLoop]
    split
    · rw [List.map_cons, ih]
    · exact ih loads

theorem grants_granted (honline : online.Nodup) {queue : List JobDescriptor} {loads : List NodeLoad} :
    ∀ g ∈ grants config online now_us queue loads, Granted config online g.1 g.2 := by
  induction queue generalizing loads with
  | nil => exact List.forall_mem_nil _
  | cons job rest ih =>
    rw [grants]
    split
    case isTrue hcan => exact List.forall_mem_cons.mpr ⟨.allocate honline hcan _, ih⟩
    case isFalse => exact ih

theorem startLoop_loads (honline : online.Nodup) (queue : List JobDescriptor) (loads : List NodeLoad) (nid : UInt16) :
    (startLoop config online now_us queue loads).node_loads[nid.toNat]? =
      (loads[nid.toNat]?).map (charged (startLoop config online now_us queue loads).started nid) := by
  induction queue generalizing loads with
  | nil =>
    have hid : charged [] nid = id := funext (charged_nil nid)
    simp [startLoop, hid]
  | cons job rest ih =>
    rw [startLoop]
    split
    case isTrue hcan =>
      have hnodes : (granted config job online loads).Nodup :=
        (honline.filter _).sublist (List.take_sublist ..)
      rw [ih, allocate_eq honline, getElem?_reserveOn hnodes, Option.map_map]
      congr 1
      funext load
      -- the reservations are those of the job that is put in front of the started ones
      exact (charged_cons (markRunning { job with assigned_nodes := granted config job online loads }
        (now_us job.job_id)) _ nid load).symm
    case isFalse => exact ih loads

end Loop

/-! ## The Tick -/

section Tick

variable (s : Scheduler) (order : List JobDescriptor) (online : List UInt16) (loads : List NodeLoad)
  (now_us : UInt64 → UInt64)

/-- The jobs that a tick starts, with the loads at that moment. -/
def tickGrants : List (List NodeLoad × JobDescriptor) :=
  grants s.config_ online now_us (order.map (boost s.tenant_stats_)) loads

/-- **Started jobs get what they asked for**, and the loads count each of them on
    each of its nodes. -/
theorem tick_grants (honline : online.Nodup) :
    (tickGrants s order online loads now_us).map Prod.snd = (tickStarted s order online loads now_us).started ∧
    (∀ g ∈ tickGrants s order online loads now_us, Granted s.config_ online g.1 g.2) ∧
    ∀ nid : UInt16, (tickStarted s order online loads now_us).node_loads[nid.toNat]? =
      (loads[nid.toNat]?).map (charged (tickStarted s order online loads now_us).started nid) :=
  ⟨grants_started .., grants_granted honline, startLoop_loads honline _ loads⟩

/-- What the node used before the tick and what the tick has started on it is within
    the memory of a node. -/
def WithinMemory : Prop :=
  ∀ (nid : UInt16) (load : NodeLoad), loads[nid.toNat]? = some load →
    load.memory_used.toNat + reserved nid (tickStarted s order online loads now_us).started ≤
      s.config_.memory_per_node.toNat

end Tick

/-- A job that needs two nodes, and one that needs the rest of a node. -/
def twoJobs : List JobDescriptor :=
  [{ job_id := 1, requested_nodes := 2, memory_per_node := 3 }, { job_id := 2, requested_nodes := 1, memory_per_node := 5 }]

/-- The manager of node 0 has one online node, so that only the second job starts. -/
theorem tick_grants_second :
    let online := ClusterManager.online_nodes (ClusterManager.new 0 8).state_
    let s : Scheduler := { config_ := { memory_per_node := 8 }, queue_ := twoJobs }
    ((tickStarted s twoJobs online [{}, {}] fun _ => 7).started.map fun j => (j.job_id, j.assigned_nodes)) = [(2, [0])] ∧
    (tickStarted s twoJobs online [{}, {}] fun _ => 7).node_loads = [⟨5, 1⟩, {}] ∧
    ∀ g ∈ tickGrants s twoJobs online [{}, {}] fun _ => 7, Granted s.config_ online g.1 g.2 :=
  ⟨by decide, by decide, (tick_grants _ _ _ _ _ (ClusterManager.nodup_online_nodes _)).2.1⟩

/-! ## Requests That Wrap -/

/-- Requests that the sum has room for are counted in full. -/
theorem withinMemory_of_safe {s : Scheduler} {order : List JobDescriptor} (horder : SortOf s.queue_ order)
    (online : List UInt16) {loads : List NodeLoad}
    (hloads : ∀ load ∈ loads, load.memory_used ≤ s.config_.memory_per_node)
    (hroom : ∀ j ∈ s.queue_, s.config_.memory_per_node.toNat + j.memory_per_node.toNat < 2 ^ 64)
    (now_us : UInt64 → UInt64) : WithinMemory s order online loads now_us := by
  intro nid load hload
  have hused : ∀ l ∈ loads, l.memory_used.toNat ≤ s.config_.memory_per_node.toNat := fun l hl =>
    UInt64.le_iff_toNat_le.mp (hloads l hl)
  have hsafe : ∀ j ∈ order.map (boost s.tenant_stats_), Safe s.config_ loads j := by
    intro j hj
    obtain ⟨k, hk, rfl⟩ := List.mem_map.mp hj
    have hlt := hroom k (horder.1.mem_iff.mp hk)
    unfold Safe
    rw [boost_memory]
    exact ⟨hlt, fun l hl => Nat.lt_of_le_of_lt (Nat.add_le_add_right (hused l hl) _) hlt⟩
  -- what is needed on a node before the tick is what it uses
  let need : UInt16 → Nat := fun n => (loads[n.toNat]?).elim 0 fun l => l.memory_used.toNat
  have hneed : ∀ (n : UInt16) l, loads[n.toNat]? = some l → need n = l.memory_used.toNat := by
    intro n l hl
    simp [need, hl]
  have hcovers : Covers online loads need := fun n _ l hl => Nat.le_of_eq (hneed n l hl)
  have hle : ∀ n, need n ≤ s.config_.memory_per_node.toNat := by
    intro n
    cases hl : loads[n.toNat]? with
    | none => simp [need, hl]
    | some l => exact hneed n l hl ▸ hused l (List.mem_of_getElem? hl)
  rw [← hneed nid load hload]
  exact startLoop_reserved hsafe hcovers hle nid

/-- A job with the given request. -/
def asking (m : UInt64) : JobDescriptor := { requested_nodes := 1, memory_per_node := m }

/-- A node that uses so much that the request of `asking m` brings the sum to zero. -/
theorem not_withinMemory {config : Config} {m : UInt64} (hm : 2 ^ 64 ≤ config.memory_per_node.toNat + m.toNat) :
    -m ≤ config.memory_per_node ∧
      ¬WithinMemory { config_ := config, queue_ := [asking m] } [asking m] [0] [⟨-m, 0⟩] fun _ => 0 := by
  have hsize : UInt64.size = 2 ^ 64 := rfl
  have hlt := config.memory_per_node.toNat_lt
  have hsum : (-m).toNat + m.toNat = 2 ^ 64 := by
    have hm' := m.toNat_lt
    rw [UInt64.toNat_neg, hsize, Nat.mod_eq_of_lt (by omega)]
    omega
  have hzero : -m + m = 0 := by
    rw [← UInt64.toNat_inj, UInt64.toNat_add, hsum]
    rfl
  have hroom : hasRoom config (asking m) [⟨-m, 0⟩] 0 = true := by
    apply decide_eq_true
    show -m + m ≤ config.memory_per_node
    rw [hzero]
    exact UInt64.zero_le
  refine ⟨UInt64.le_iff_toNat_le.mpr (by omega), fun hwithin => ?_⟩
  have hstarted : (tickStarted { config_ := config, queue_ := [asking m] } [asking m] [0] [⟨-m, 0⟩]
      fun _ => 0).started = [markRunning { asking m with assigned_nodes := [0] } 0] := by
    have hboost : boost [] (asking m) = asking m := rfl
    have hcan : can_allocate config (asking m) [0] [⟨-m, 0⟩] = true := by
      apply decide_eq_true
      show 1 ≤ [0].countP (hasRoom config (asking m) [⟨-m, 0⟩])
      rw [List.countP_cons_of_pos hroom]
      exact Nat.le_refl 1
    have hallocate : (allocate config (asking m) [0] [⟨-m, 0⟩]).1 = { asking m with assigned_nodes := [0] } := by
      rw [allocate_eq (List.nodup_singleton _), granted, List.filter_cons_of_pos hroom]
      rfl
    simp only [tickStarted, List.map_cons, List.map_nil, hboost, startLoop, hcan, if_true, hallocate]
  have hle := hwithin 0 ⟨-m, 0⟩ rfl
  rw [hstarted, reserved_cons, reserved_nil] at hle
  simp only [markRunning, asking, List.mem_singleton, if_true] at hle
  omega

/-- **A tick stays within the memory of the nodes** for all loads and queues if and
    only if no request wraps when it is added to the memory of a node. -/
theorem tick_within_memory_iff (config : Config) (R : UInt64 → Prop) :
    (∀ (s : Scheduler) (order : List JobDescriptor) (online : List UInt16) (loads : List NodeLoad)
      (now_us : UInt64 → UInt64), s.config_ = config → SortOf s.queue_ order →
      (∀ j ∈ s.queue_, R j.memory_per_node) →
      (∀ load ∈ loads, load.memory_used ≤ config.memory_per_node) → WithinMemory s order online loads now_us) ↔
    ∀ m, R m → config.memory_per_node.toNat + m.toNat < 2 ^ 64 := by
  constructor
  · intro h m hm
    by_contra hwrap
    obtain ⟨hle, hnot⟩ := not_withinMemory (Nat.le_of_not_lt hwrap)
    refine hnot (h _ _ _ _ _ rfl ⟨.refl _, List.pairwise_singleton ..⟩ ?_ ?_)
    · exact List.forall_mem_singleton.mpr hm
    · exact List.forall_mem_singleton.mpr hle
  · intro h s order online loads now_us hconfig horder hqueue hloads
    subst hconfig
    exact withinMemory_of_safe horder online hloads (fun j hj => h _ (hqueue j hj)) now_us

/-- Nodes of 8 bytes, one of them full. The request of 2^64 - 8 bytes is started
    on it, and its load is 0 after the tick. -/
theorem tick_starts_beyond_memory :
    let s : Scheduler := { config_ := { memory_per_node := 8 }, queue_ := [asking (-8)] }
    (∀ load ∈ [(⟨8, 0⟩ : NodeLoad)], load.memory_used ≤ s.config_.memory_per_node) ∧
    ((s.schedule_tick [asking (-8)] [0] [⟨8, 0⟩] fun _ => 0).2.active_.map fun j => j.assigned_nodes) = [[0]] ∧
    (tickStarted s [asking (-8)] [0] [⟨8, 0⟩] fun _ => 0).node_loads = [⟨0, 1⟩] ∧
    ¬WithinMemory s [asking (-8)] [0] [⟨8, 0⟩] fun _ => 0 := by
  have hle : 2 ^ 64 ≤ ({ memory_per_node := 8 } : Config).memory_per_node.toNat + (-8 : UInt64).toNat := by decide
  exact ⟨by decide, by decide, by decide, (not_withinMemory hle).2⟩

end Mccl.Scheduler
