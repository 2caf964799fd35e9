import Mathlib.Data.List.Basic
import Mathlib.Data.List.Count
import Mccl.Framework.System

/-! # The Job Scheduler

    Model of `Scheduler` (`runtime/Scheduler.cpp`): a queue, the active jobs and
    the history, with the calls that move jobs between them.

    * `can_allocate` counts the online nodes on which a job fits, `allocate`
      reserves the first of them in the loads of the tick.
    * `schedule_tick` starts what fits, and then lets urgent jobs evict jobs of
      low priority. The loads are not reduced by an eviction, so the urgent job
      never starts in the same tick.
    * The clean-up after an eviction erases every active job without nodes. A
      job that asks for no node is such a job.
    * `conserved_of_reach`: no job is lost or duplicated in runs in which every
      job asks for at least one node (or preemption is off).
    * `ended_jobs_final`: in these runs a job that has ended stays ended. -/

namespace Mccl

/-! ## Jobs -/

inductive JobPriority where
  | LOW
  | NORMAL
  | HIGH
  | CRITICAL
deriving DecidableEq

/-- The value of the enumerator. -/
def JobPriority.value : JobPriority → Nat
  | .LOW => 0
  | .NORMAL => 1
  | .HIGH => 2
  | .CRITICAL => 3

inductive JobStatus where
  | PENDING
  | RUNNING
  | COMPLETED
  | FAILED
  | RESCHEDULING
deriving DecidableEq

structure JobDescriptor where
  job_id : UInt64 := 0
  owner : String := ""
  requested_nodes : UInt16 := 0
  memory_per_node : UInt64 := 0
  priority : JobPriority := .NORMAL
  status : JobStatus := .PENDING
  assigned_nodes : List UInt16 := []
  submitted_at_us : UInt64 := 0
  started_at_us : UInt64 := 0
  completed_at_us : UInt64 := 0
deriving DecidableEq

structure NodeLoad where
  memory_used : UInt64 := 0
  active_jobs : Int := 0
deriving DecidableEq

/-- `total_node_seconds` of an owner. -/
abbrev TenantStats := List (String × UInt64)

namespace Scheduler

structure Config where
  memory_per_node : UInt64 := 0
  preemption_enabled : Bool := true

end Scheduler

structure Scheduler where
  config_ : Scheduler.Config
  next_job_id_ : UInt64 := 1
  queue_ : List JobDescriptor := []
  active_ : List JobDescriptor := []
  history_ : List JobDescriptor := []
  tenant_stats_ : TenantStats := []

namespace Scheduler

/-! ## Resources -/

/-- The comparison of `can_allocate` and `allocate`; the sum is one of 64-bit
    integers. -/
def fits (config : Config) (job : JobDescriptor) (load : NodeLoad) : Bool :=
  load.memory_used + job.memory_per_node ≤ config.memory_per_node

def can_allocate (config : Config) (job : JobDescriptor) (online_nodes : List UInt16)
    (node_loads : List NodeLoad) : Bool :=
  job.requested_nodes.toNat ≤ online_nodes.countP fun nid => (node_loads[nid.toNat]?).any (fits config job)

/-- What `allocate` adds to the load of a node. -/
def NodeLoad.reserve (job : JobDescriptor) (load : NodeLoad) : NodeLoad where
  memory_used := load.memory_used + job.memory_per_node
  active_jobs := load.active_jobs + 1

/-- The loop of `allocate` over the online nodes. -/
def allocateLoop (config : Config) (job : JobDescriptor) :
    List UInt16 → List UInt16 → List NodeLoad → List UInt16 × List NodeLoad
  | [], assigned_nodes, node_loads => (assigned_nodes, node_loads)
  | nid :: rest, assigned_nodes, node_loads =>
    -- `break`: the job has the nodes it asked for.
    if job.requested_nodes.toNat ≤ assigned_nodes.length then (assigned_nodes, node_loads)
    else
      match node_loads[nid.toNat]? with
      -- A node without an entry in the loads is skipped.
      | none => allocateLoop config job rest assigned_nodes node_loads
      | some load =>
        if fits config job load then
          allocateLoop config job rest (assigned_nodes ++ [nid])
            (node_loads.set nid.toNat (NodeLoad.reserve job load))
        else allocateLoop config job rest assigned_nodes node_loads

def allocate (config : Config) (job : JobDescriptor) (online_nodes : List UInt16) (node_loads : List NodeLoad) :
    JobDescriptor × List NodeLoad :=
  let r := allocateLoop config job online_nodes [] node_loads
  ({ job with assigned_nodes := r.1 }, r.2)

/-! ## Submission, Cancellation, Completion -/

/-- Returns the id of the job. -/
def submit (s : Scheduler) (job : JobDescriptor) (now_us : UInt64) : UInt64 × Scheduler :=
  let job := { job with job_id := s.next_job_id_, status := .PENDING, submitted_at_us := now_us }
  (s.next_job_id_, { s with next_job_id_ := s.next_job_id_ + 1, queue_ := s.queue_ ++ [job] })

/-- `find_if` for an id, with the container after `erase`. -/
def takeJob (job_id : UInt64) : List JobDescriptor → Option (JobDescriptor × List JobDescriptor)
  | [] => none
  | job :: rest =>
    if job.job_id = job_id then some (job, rest)
    else (takeJob job_id rest).map fun found => (found.1, job :: found.2)

/-- `status` and `completed_at_us` of a job that ends. -/
def markEnded (job : JobDescriptor) (status : JobStatus) (now_us : UInt64) : JobDescriptor :=
  { job with status := status, completed_at_us := now_us }

def cancel (s : Scheduler) (job_id : UInt64) (now_us : UInt64) : Bool × Scheduler :=
  match takeJob job_id s.queue_ with
  | some (_, queue) => (true, { s with queue_ := queue })
  | none =>
    match takeJob job_id s.active_ with
    | some (job, active) =>
      (true, { s with active_ := active, history_ := s.history_ ++ [markEnded job .FAILED now_us] })
    | none => (false, s)

/-- `tenant_stats_[owner].total_node_seconds += seconds`. -/
def addNodeSeconds (owner : String) (seconds : UInt64) : TenantStats → TenantStats
  | [] => [(owner, seconds)]
  | (o, n) :: rest => if o = owner then (o, n + seconds) :: rest else (o, n) :: addNodeSeconds owner seconds rest

def complete (s : Scheduler) (job_id : UInt64) (success : Bool) (now_us : UInt64) : Bool × Scheduler :=
  match takeJob job_id s.active_ with
  | none => (false, s)
  | some (job, active) =>
    let job := markEnded job (if success then .COMPLETED else .FAILED) now_us
    -- 64-bit subtraction: a clock that went back gives a huge number.
    let elapsed_s := (job.completed_at_us - job.started_at_us) / 1000000
    let stats :=
      if job.started_at_us > 0 then
        addNodeSeconds job.owner (elapsed_s * job.assigned_nodes.length.toUInt64) s.tenant_stats_
      else s.tenant_stats_
    (true, { s with active_ := active, history_ := s.history_ ++ [job], tenant_stats_ := stats })

/-! ## The Tick -/

/-- The comparison that `std::sort` is given. -/
def comesBefore (a b : JobDescriptor) : Bool :=
  if a.priority ≠ b.priority then b.priority.value < a.priority.value
  else a.submitted_at_us < b.submitted_at_us

/-- `order` is a result that `std::sort` may leave in the queue; the sort is not
    stable. -/
def SortOf (queue order : List JobDescriptor) : Prop :=
  order.Perm queue ∧ order.Pairwise fun a b => comesBefore b a = false

/-- The fair-share boost of a queued job. The shares are doubles. -/
def boost (stats : TenantStats) (job : JobDescriptor) : JobDescriptor :=
  let total_node_s := stats.foldl (fun sum tenant => sum + tenant.2) 0
  if total_node_s > 0 then
    match stats.lookup job.owner with
    | some seconds =>
      let share := seconds.toFloat / (max total_node_s 1).toFloat
      if share < 1.0 / (max stats.length 1).toFloat then
        if job.priority = .LOW then { job with priority := .NORMAL } else job
      else job
    -- A tenant that has used nothing is not in the table, and gets no boost.
    | none => job
  else job

/-- `status` and `started_at_us` of a job that `allocate` has given its nodes. -/
def markRunning (job : JobDescriptor) (now_us : UInt64) : JobDescriptor :=
  { job with status := .RUNNING, started_at_us := now_us }

structure Started where
  /-- The jobs that stay in the queue. -/
  left : List JobDescriptor
  started : List JobDescriptor
  node_loads : List NodeLoad

/-- The first loop of the tick. `now_us` is the clock as it is read for the job
    with the given id. -/
def startLoop (config : Config) (online_nodes : List UInt16) (now_us : UInt64 → UInt64) :
    List JobDescriptor → List NodeLoad → Started
  | [], node_loads => ⟨[], [], node_loads⟩
  | job :: rest, node_loads =>
    if can_allocate config job online_nodes node_loads then
      let r := allocate config job online_nodes node_loads
      let s := startLoop config online_nodes now_us rest r.2
      { s with started := markRunning r.1 (now_us job.job_id) :: s.started }
    else
      let s := startLoop config online_nodes now_us rest node_loads
      { s with left := job :: s.left }

/-- The first active job that `job` may evict, with the active jobs in which it
    is overwritten by `JobDescriptor{}`. -/
def evictLow (job : JobDescriptor) : List JobDescriptor → Option (JobDescriptor × List JobDescriptor)
  | [] => none
  | active :: rest =>
    if active.priority = .LOW ∧ job.requested_nodes.toNat ≤ active.assigned_nodes.length then
      some (active, {} :: rest)
    else (evictLow job rest).map fun found => (found.1, active :: found.2)

/-- The state of the preemption loop. The queue is `pushed` followed by the jobs
    that were queued when the loop started. -/
structure Preemption where
  pushed : List JobDescriptor
  visited : List JobDescriptor
  active : List JobDescriptor
  node_loads : List NodeLoad
  started : Nat

/-- The eviction for `job`, and the second attempt to allocate it. -/
def preemptFor (config : Config) (online_nodes : List UInt16) (now_us : UInt64 → UInt64) (p : Preemption)
    (job : JobDescriptor) : Preemption :=
  match evictLow job p.active with
  | none => { p with visited := p.visited ++ [job] }
  | some (victim, active) =>
    -- The victim keeps its `assigned_nodes`, and the loads keep its memory.
    let pushed := { victim with status := .RESCHEDULING } :: p.pushed
    if can_allocate config job online_nodes p.node_loads then
      let r := allocate config job online_nodes p.node_loads
      let job := markRunning r.1 (now_us job.job_id)
      ⟨pushed, p.visited ++ [job], active ++ [job], r.2, p.started + 1⟩
    else { p with pushed := pushed, visited := p.visited ++ [job], active := active }

/-- The body of the preemption loop. -/
def preemptBody (config : Config) (online_nodes : List UInt16) (now_us : UInt64 → UInt64) (p : Preemption)
    (job : JobDescriptor) : Preemption :=
  if job.priority.value < JobPriority.HIGH.value then { p with visited := p.visited ++ [job] }
  else if can_allocate config job online_nodes p.node_loads then { p with visited := p.visited ++ [job] }
  else
    let p := preemptFor config online_nodes now_us p job
    -- The clean-up erases every active job without nodes, not only the victim.
    { p with active := p.active.filter fun j => !j.assigned_nodes.isEmpty }

/-- The second half of the tick, after the first loop has started what fits. -/
def preempt (s : Scheduler) (online_nodes : List UInt16) (now_us : UInt64 → UInt64) (r : Started) :
    Nat × Scheduler :=
  let active := s.active_ ++ r.started
  if s.config_.preemption_enabled then
    let p := r.left.foldl (preemptBody s.config_ online_nodes now_us)
      ⟨[], [], active, r.node_loads, r.started.length⟩
    (p.started, { s with queue_ := p.pushed ++ p.visited, active_ := p.active })
  else (r.started.length, { s with queue_ := r.left, active_ := active })

/-- Returns the number of started jobs. `order` is the queue as `std::sort`
    leaves it. -/
def schedule_tick (s : Scheduler) (order : List JobDescriptor) (online_nodes : List UInt16)
    (node_loads : List NodeLoad) (now_us : UInt64 → UInt64) : Nat × Scheduler :=
  preempt s online_nodes now_us
    (startLoop s.config_ online_nodes now_us (order.map (boost s.tenant_stats_)) node_loads)

/-! ## Eviction -/

/-- The body of the loop of `evict_node` for one active job, which the loop also
    changes in place. -/
def evictBody (failed_node_id : UInt16) (now_us : UInt64 → UInt64) (s : Scheduler) (job : JobDescriptor) :
    Scheduler :=
  if failed_node_id ∈ job.assigned_nodes then
    -- `find` and `erase`: the first occurrence goes.
    let nodes := job.assigned_nodes.erase failed_node_id
    if nodes.isEmpty then
      let job := { job with
        assigned_nodes := nodes
        status := .FAILED
        completed_at_us := now_us job.job_id }
      { s with active_ := s.active_ ++ [job], history_ := s.history_ ++ [job] }
    else
      let job := { job with assigned_nodes := nodes, status := .RESCHEDULING }
      { s with active_ := s.active_ ++ [job], queue_ := job :: s.queue_ }
  else { s with active_ := s.active_ ++ [job] }

/-- The condition of the `remove_if` at the end of `evict_node`, negated. -/
def stays (job : JobDescriptor) : Bool := !(job.status = .FAILED || job.status = .RESCHEDULING)

def removeEvicted (s : Scheduler) : Scheduler := { s with active_ := s.active_.filter stays }

def evict_node (s : Scheduler) (failed_node_id : UInt16) (now_us : UInt64 → UInt64) : Scheduler :=
  removeEvicted (s.active_.foldl (evictBody failed_node_id now_us) { s with active_ := [] })

/-! ## What the Operations Do to the Containers -/

variable {job : JobDescriptor} {s : Scheduler}

theorem takeJob_some {id : UInt64} {l r : List JobDescriptor}
    (h : takeJob id l = some (job, r)) : l.Perm (job :: r) ∧ job.job_id = id := by
  induction l generalizing r with
  | nil => cases h
  | cons j rest ih =>
    simp only [takeJob] at h
    split at h
    · cases h
      exact ⟨.refl _, ‹_›⟩
    · obtain ⟨⟨k, r'⟩, hk, heq⟩ := Option.map_eq_some_iff.mp h
      cases heq
      obtain ⟨hperm, hid⟩ := ih hk
      exact ⟨(hperm.cons j).trans (.swap ..), hid⟩

section Allocation

variable {config : Config} {online : List UInt16} {now_us : UInt64 → UInt64} {job : JobDescriptor}

theorem allocateLoop_append (nodes assigned : List UInt16) (loads : List NodeLoad) :
    assigned <+: (allocateLoop config job nodes assigned loads).1 := by
  induction nodes generalizing assigned loads with
  | nil => exact List.prefix_rfl
  | cons nid rest ih =>
    simp only [allocateLoop]
    split
    · exact List.prefix_rfl
    · split
      · exact ih ..
      · split
        · exact (List.prefix_append ..).trans (ih ..)
        · exact ih ..

theorem allocateLoop_ne_nil {nodes : List UInt16} {loads : List NodeLoad} (hreq : 0 < job.requested_nodes.toNat)
    (hfit : ∃ nid ∈ nodes, (loads[nid.toNat]?).any (fits config job) = true) :
    (allocateLoop config job nodes [] loads).1 ≠ [] := by
  induction nodes with
  | nil => obtain ⟨_, hmem, _⟩ := hfit; cases hmem
  | cons nid rest ih =>
    obtain ⟨n, hmem, hn⟩ := hfit
    rw [allocateLoop, if_neg (by simpa using Nat.pos_iff_ne_zero.mp hreq)]
    split
    · rename_i hnone
      rcases List.mem_cons.mp hmem with rfl | hmem
      · simp [hnone] at hn
      · exact ih ⟨n, hmem, hn⟩
    · rename_i load hload
      split
      · -- the node is taken, and what is assigned stays assigned
        intro hnil
        have hpre : [nid] <+: (allocateLoop config job rest ([] ++ [nid])
            (loads.set nid.toNat (NodeLoad.reserve job load))).1 := allocateLoop_append ..
        rw [hnil] at hpre
        exact absurd (List.prefix_nil.mp hpre) (List.cons_ne_nil _ _)
      · rename_i hno
        rcases List.mem_cons.mp hmem with rfl | hmem
        · simp [hload, hno] at hn
        · exact ih ⟨n, hmem, hn⟩

theorem allocate_ne_nil {loads : List NodeLoad} (hreq : 0 < job.requested_nodes.toNat)
    (hcan : can_allocate config job online loads = true) :
    (allocate config job online loads).1.assigned_nodes ≠ [] := by
  apply allocateLoop_ne_nil hreq
  have hcount := of_decide_eq_true hcan
  exact List.countP_pos_iff.mp (Nat.lt_of_lt_of_le hreq hcount)

end Allocation

/-! ## Conservation of Jobs -/

/-- The number of times an id occurs in a container. -/
def copies (id : UInt64) (jobs : List JobDescriptor) : Nat := jobs.countP fun j => j.job_id = id

section Copies

variable {id : UInt64} {job job' : JobDescriptor} {l l' : List JobDescriptor}

@[simp] theorem copies_nil : copies id [] = 0 := rfl

@[simp] theorem copies_append : copies id (l ++ l') = copies id l + copies id l' := List.countP_append

@[simp] theorem copies_cons : copies id (job :: l) = copies id l + if job.job_id = id then 1 else 0 := by
  simp [copies, List.countP_cons]

theorem copies_perm (h : l.Perm l') : copies id l = copies id l' := h.countP_eq _

theorem copies_map {f : JobDescriptor → JobDescriptor} (hf : ∀ j, (f j).job_id = j.job_id) :
    copies id (l.map f) = copies id l := by
  simp [copies, List.countP_map, Function.comp_def, hf]

end Copies

/-- The clean-up may erase an active job only where preemption is on, so that is
    where a job has to ask for a node. -/
def Asks (config : Config) (job : JobDescriptor) : Prop :=
  config.preemption_enabled = true → 0 < job.requested_nodes.toNat

structure Queued (config : Config) (job : JobDescriptor) : Prop where
  status : job.status = .PENDING ∨ job.status = .RESCHEDULING
  asks : Asks config job

structure Running (config : Config) (job : JobDescriptor) : Prop where
  status : job.status = .RUNNING
  asks : Asks config job
  placed : config.preemption_enabled = true → job.assigned_nodes ≠ []

/-- The jobs of each container are in a state that belongs there. -/
structure Wf (s : Scheduler) : Prop where
  queue : ∀ j ∈ s.queue_, Queued s.config_ j
  active : ∀ j ∈ s.active_, Running s.config_ j
  history : ∀ j ∈ s.history_, j.status = .COMPLETED ∨ j.status = .FAILED

/-- How often an id occurs in the three containers together. -/
def occurrences (s : Scheduler) (id : UInt64) : Nat := copies id (s.queue_ ++ s.active_ ++ s.history_)

section Tick

variable {config : Config} {online : List UInt16} {now_us : UInt64 → UInt64} {job : JobDescriptor}

theorem boost_job_id (stats : TenantStats) : (boost stats job).job_id = job.job_id := by
  simp only [boost]
  repeat' split
  all_goals rfl

theorem boost_memory (stats : TenantStats) : (boost stats job).memory_per_node = job.memory_per_node := by
  simp only [boost]
  repeat' split
  all_goals rfl

theorem Queued.boost (h : Queued config job) (stats : TenantStats) : Queued config (boost stats job) := by
  simp only [Scheduler.boost]
  repeat' split
  all_goals first | exact h | exact ⟨h.status, h.asks⟩

theorem Queued.start {loads : List NodeLoad} (h : Queued config job)
    (hcan : can_allocate config job online loads = true) (t : UInt64) :
    Running config (markRunning (allocate config job online loads).1 t) where
  status := rfl
  asks := h.asks
  placed hpre := allocate_ne_nil (h.asks hpre) hcan

theorem startLoop_copies (id : UInt64) (queue : List JobDescriptor) (loads : List NodeLoad) :
    copies id (startLoop config online now_us queue loads).left +
      copies id (startLoop config online now_us queue loads).started = copies id queue := by
  induction queue generalizing loads with
  | nil => rfl
  | cons job rest ih =>
    simp only [startLoop]
    split
    · -- starting a job changes its status and nodes, not its id
      have hrest := ih (allocate config job online loads).2
      simp only [copies_cons, markRunning, allocate] at hrest ⊢
      omega
    · have hrest := ih loads
      simp only [copies_cons]
      omega

theorem startLoop_wf {queue : List JobDescriptor} (h : ∀ j ∈ queue, Queued config j) (loads : List NodeLoad) :
    (∀ j ∈ (startLoop config online now_us queue loads).left, Queued config j) ∧
      ∀ j ∈ (startLoop config online now_us queue loads).started, Running config j := by
  induction queue generalizing loads with
  | nil => exact ⟨h, fun j hj => absurd hj List.not_mem_nil⟩
  | cons job rest ih =>
    obtain ⟨hjob, hrest⟩ := List.forall_mem_cons.mp h
    simp only [startLoop]
    split
    · obtain ⟨hleft, hstarted⟩ := ih hrest (allocate config job online loads).2
      exact ⟨hleft, List.forall_mem_cons.mpr ⟨hjob.start ‹_› _, hstarted⟩⟩
    · obtain ⟨hleft, hstarted⟩ := ih hrest loads
      exact ⟨List.forall_mem_cons.mpr ⟨hjob, hleft⟩, hstarted⟩

theorem evictLow_some {l l' : List JobDescriptor} {victim : JobDescriptor}
    (h : evictLow job l = some (victim, l')) :
    ∃ l₁ l₂, l = l₁ ++ victim :: l₂ ∧ l' = l₁ ++ {} :: l₂ := by
  induction l generalizing l' with
  | nil => cases h
  | cons j rest ih =>
    simp only [evictLow] at h
    split at h
    · cases h
      exact ⟨[], rest, rfl, rfl⟩
    · obtain ⟨⟨k, r'⟩, hk, heq⟩ := Option.map_eq_some_iff.mp h
      cases heq
      obtain ⟨l₁, l₂, rfl, rfl⟩ := ih hk
      exact ⟨j :: l₁, l₂, rfl, rfl⟩

/-- What one turn of the preemption loop does: nothing but passing on, or the
    clean-up, after an active job may have gone back to the queue. The loads
    stay as they are, so the second attempt to allocate fails as the first. -/
theorem preemptBody_cases (p : Preemption) :
    preemptBody config online now_us p job = { p with visited := p.visited ++ [job] } ∨
    preemptBody config online now_us p job =
      { p with
        visited := p.visited ++ [job]
        active := p.active.filter fun j => !j.assigned_nodes.isEmpty } ∨
    ∃ l₁ victim l₂, p.active = l₁ ++ victim :: l₂ ∧
      preemptBody config online now_us p job =
        { p with
          pushed := { victim with status := .RESCHEDULING } :: p.pushed
          visited := p.visited ++ [job]
          active := (l₁ ++ l₂).filter fun j => !j.assigned_nodes.isEmpty } := by
  by_cases hlow : job.priority.value < JobPriority.HIGH.value
  · exact .inl (if_pos hlow)
  by_cases hcan : can_allocate config job online p.node_loads = true
  · left
    rw [preemptBody, if_neg hlow, if_pos hcan]
  right
  rw [preemptBody, if_neg hlow, if_neg hcan]
  -- the loads are still those of the first attempt, so `hcan` decides the second one
  cases hev : evictLow job p.active with
  | none =>
    left
    simp only [preemptFor, hev]
  | some found =>
    right
    obtain ⟨victim, active⟩ := found
    obtain ⟨l₁, l₂, hl, rfl⟩ := evictLow_some hev
    refine ⟨l₁, victim, l₂, hl, ?_⟩
    simp only [preemptFor, hev, if_neg hcan, List.filter_append, List.filter_cons, List.isEmpty_nil,
      Bool.not_true, Bool.false_eq_true, if_false]

/-- What the preemption loop maintains, `n` being the number of copies of an id
    in the queue and among the active jobs. -/
structure Preemption.Ok (config : Config) (id : UInt64) (n : Nat) (p : Preemption) : Prop where
  pushed : ∀ j ∈ p.pushed, Queued config j
  visited : ∀ j ∈ p.visited, Queued config j
  active : ∀ j ∈ p.active, Running config j
  count : copies id p.pushed + copies id p.visited + copies id p.active = n

theorem filter_running {l : List JobDescriptor} (hpre : config.preemption_enabled = true)
    (h : ∀ j ∈ l, Running config j) : (l.filter fun j => !j.assigned_nodes.isEmpty) = l := by
  rw [List.filter_eq_self]
  intro j hj
  simpa using (h j hj).placed hpre

theorem Preemption.Ok.body {id : UInt64} {n : Nat} {p : Preemption} (hpre : config.preemption_enabled = true)
    (h : p.Ok config id n) (hjob : Queued config job) :
    (preemptBody config online now_us p job).Ok config id (n + copies id [job]) := by
  have hvisited : ∀ j ∈ p.visited ++ [job], Queued config j :=
    List.forall_mem_append.mpr ⟨h.visited, List.forall_mem_singleton.mpr hjob⟩
  have hcopies := h.count
  -- whatever the turn does, each job is in one of the three lists
  rcases preemptBody_cases p with heq | heq | ⟨l₁, victim, l₂, hl, heq⟩ <;> rw [heq]
  · refine ⟨h.pushed, hvisited, h.active, ?_⟩
    simp only [copies_append]
    omega
  · rw [filter_running hpre h.active]
    refine ⟨h.pushed, hvisited, h.active, ?_⟩
    simp only [copies_append]
    omega
  · -- the victim moves from the active jobs to the queue
    have hactive := h.active
    rw [hl, List.forall_mem_append, List.forall_mem_cons] at hactive
    obtain ⟨h₁, hvictim, h₂⟩ := hactive
    have hrest : ∀ j ∈ l₁ ++ l₂, Running config j := List.forall_mem_append.mpr ⟨h₁, h₂⟩
    rw [filter_running hpre hrest]
    refine ⟨List.forall_mem_cons.mpr ⟨⟨.inr rfl, hvictim.asks⟩, h.pushed⟩, hvisited, hrest, ?_⟩
    rw [hl] at hcopies
    simp only [copies_append, copies_cons] at hcopies ⊢
    omega

theorem Preemption.Ok.loop {id : UInt64} {n : Nat} {p : Preemption} (hpre : config.preemption_enabled = true)
    (h : p.Ok config id n) {jobs : List JobDescriptor} (hjobs : ∀ j ∈ jobs, Queued config j) :
    (jobs.foldl (preemptBody config online now_us) p).Ok config id (n + copies id jobs) := by
  induction jobs generalizing p n with
  | nil => exact h
  | cons job rest ih =>
    obtain ⟨hjob, hrest⟩ := List.forall_mem_cons.mp hjobs
    have hbody : (preemptBody config online now_us p job).Ok config id (n + copies id [job]) := h.body hpre hjob
    have hnext := ih hbody hrest
    have hn : n + copies id [job] + copies id rest = n + copies id (job :: rest) := by
      simp only [copies_cons, copies_nil]
      omega
    rwa [hn] at hnext

end Tick

theorem schedule_tick_config (s : Scheduler) (order : List JobDescriptor) (online : List UInt16)
    (loads : List NodeLoad) (now_us : UInt64 → UInt64) :
    (s.schedule_tick order online loads now_us).2.config_ = s.config_ := by
  simp only [schedule_tick, preempt]
  split <;> rfl

theorem schedule_tick_next (s : Scheduler) (order : List JobDescriptor) (online : List UInt16)
    (loads : List NodeLoad) (now_us : UInt64 → UInt64) :
    (s.schedule_tick order online loads now_us).2.next_job_id_ = s.next_job_id_ := by
  simp only [schedule_tick, preempt]
  split <;> rfl

theorem Wf.preempt (h : s.Wf) {r : Started} (hleft : ∀ j ∈ r.left, Queued s.config_ j)
    (hstarted : ∀ j ∈ r.started, Running s.config_ j)
    (hcount : ∀ id, copies id r.left + copies id r.started = copies id s.queue_)
    (online : List UInt16) (now_us : UInt64 → UInt64) :
    (s.preempt online now_us r).2.Wf ∧
      ∀ id, (s.preempt online now_us r).2.occurrences id = s.occurrences id := by
  have hactive : ∀ j ∈ s.active_ ++ r.started, Running s.config_ j :=
    List.forall_mem_append.mpr ⟨h.active, hstarted⟩
  simp only [Scheduler.preempt]
  split
  · rename_i hpre
    -- the loop starts with nothing pushed or visited
    have hok : ∀ id, (r.left.foldl (preemptBody s.config_ online now_us)
        ⟨[], [], s.active_ ++ r.started, r.node_loads, r.started.length⟩).Ok s.config_ id
          (copies id (s.active_ ++ r.started) + copies id r.left) := by
      intro id
      have hstart : Preemption.Ok s.config_ id (copies id (s.active_ ++ r.started))
          ⟨[], [], s.active_ ++ r.started, r.node_loads, r.started.length⟩ :=
        ⟨fun j hj => absurd hj List.not_mem_nil, fun j hj => absurd hj List.not_mem_nil, hactive, by simp⟩
      exact hstart.loop hpre hleft
    refine ⟨⟨List.forall_mem_append.mpr ⟨(hok 0).pushed, (hok 0).visited⟩, (hok 0).active, h.history⟩,
      fun id => ?_⟩
    have hloop := (hok id).count
    have hfirst := hcount id
    simp only [occurrences, copies_append] at hloop ⊢
    omega
  · refine ⟨⟨hleft, hactive, h.history⟩, fun id => ?_⟩
    have hfirst := hcount id
    simp only [occurrences, copies_append]
    omega

/-- A tick moves jobs between the queue and the active jobs. -/
theorem Wf.schedule_tick (h : s.Wf) {order : List JobDescriptor} (horder : SortOf s.queue_ order)
    (online : List UInt16) (loads : List NodeLoad) (now_us : UInt64 → UInt64) :
    (s.schedule_tick order online loads now_us).2.Wf ∧
      ∀ id, (s.schedule_tick order online loads now_us).2.occurrences id = s.occurrences id := by
  have hqueue : ∀ j ∈ order.map (boost s.tenant_stats_), Queued s.config_ j := by
    intro j hj
    obtain ⟨k, hk, rfl⟩ := List.mem_map.mp hj
    exact (h.queue k (horder.1.mem_iff.mp hk)).boost _
  obtain ⟨hleft, hstarted⟩ := startLoop_wf hqueue loads
  apply h.preempt hleft hstarted
  intro id
  rw [startLoop_copies, copies_map fun j => boost_job_id _, copies_perm horder.1]

/-! ### Eviction of a node -/

theorem evictBody_fixed (failed : UInt16) (now_us : UInt64 → UInt64) (s : Scheduler) (job : JobDescriptor) :
    (evictBody failed now_us s job).config_ = s.config_ ∧
      (evictBody failed now_us s job).next_job_id_ = s.next_job_id_ := by
  simp only [evictBody]
  repeat' split
  all_goals exact ⟨rfl, rfl⟩

theorem evictLoop_fixed (failed : UInt16) (now_us : UInt64 → UInt64) (jobs : List JobDescriptor) (s : Scheduler) :
    (jobs.foldl (evictBody failed now_us) s).config_ = s.config_ ∧
      (jobs.foldl (evictBody failed now_us) s).next_job_id_ = s.next_job_id_ := by
  induction jobs generalizing s with
  | nil => exact ⟨rfl, rfl⟩
  | cons job rest ih =>
    obtain ⟨hconfig, hnext⟩ := ih (evictBody failed now_us s job)
    obtain ⟨hconfig', hnext'⟩ := evictBody_fixed failed now_us s job
    exact ⟨hconfig.trans hconfig', hnext.trans hnext'⟩

theorem evict_node_config (s : Scheduler) (failed : UInt16) (now_us : UInt64 → UInt64) :
    (s.evict_node failed now_us).config_ = s.config_ :=
  (evictLoop_fixed failed now_us s.active_ { s with active_ := [] }).1

theorem evict_node_next (s : Scheduler) (failed : UInt16) (now_us : UInt64 → UInt64) :
    (s.evict_node failed now_us).next_job_id_ = s.next_job_id_ :=
  (evictLoop_fixed failed now_us s.active_ { s with active_ := [] }).2

theorem filter_stays_append (l : List JobDescriptor) (job : JobDescriptor) :
    (l ++ [job]).filter stays = l.filter stays ++ if stays job then [job] else [] := by
  rw [List.filter_append, List.filter_cons, List.filter_nil]

/-- One turn of the loop moves one job. -/
theorem evictBody_wf (h : s.removeEvicted.Wf) (hjob : Running s.config_ job)
    (failed : UInt16) (now_us : UInt64 → UInt64) :
    (evictBody failed now_us s job).removeEvicted.Wf ∧
      ∀ id, (evictBody failed now_us s job).removeEvicted.occurrences id =
        s.removeEvicted.occurrences id + copies id [job] := by
  simp only [evictBody]
  split
  · split
    · -- it has lost its last node: the entry that stays behind is removed in the end
      refine ⟨⟨h.queue, ?_, ?_⟩, fun id => ?_⟩
      · rw [removeEvicted, filter_stays_append, if_neg (Bool.eq_false_iff.mp (by rfl)), List.append_nil]
        exact h.active
      · exact List.forall_mem_append.mpr ⟨h.history, List.forall_mem_singleton.mpr (.inr rfl)⟩
      · rw [occurrences, removeEvicted, filter_stays_append, if_neg (Bool.eq_false_iff.mp (by rfl))]
        simp only [occurrences, removeEvicted, copies_append, copies_cons, copies_nil]
        omega
    · -- it goes back to the queue with the nodes it has left
      refine ⟨⟨?_, ?_, h.history⟩, fun id => ?_⟩
      · exact List.forall_mem_cons.mpr ⟨⟨.inr rfl, hjob.asks⟩, h.queue⟩
      · rw [removeEvicted, filter_stays_append, if_neg (Bool.eq_false_iff.mp (by rfl)), List.append_nil]
        exact h.active
      · rw [occurrences, removeEvicted, filter_stays_append, if_neg (Bool.eq_false_iff.mp (by rfl))]
        simp only [occurrences, removeEvicted, copies_append, copies_cons, copies_nil]
        omega
  · -- the job does not run on the failed node
    have hstays : stays job = true := by simp [stays, hjob.status]
    refine ⟨⟨h.queue, ?_, h.history⟩, fun id => ?_⟩
    · rw [removeEvicted, filter_stays_append, if_pos hstays]
      exact List.forall_mem_append.mpr ⟨h.active, List.forall_mem_singleton.mpr hjob⟩
    · rw [occurrences, removeEvicted, filter_stays_append, if_pos hstays]
      simp only [occurrences, removeEvicted, copies_append]
      omega

theorem evictLoop_wf (failed : UInt16) (now_us : UInt64 → UInt64) {jobs : List JobDescriptor}
    (h : s.removeEvicted.Wf) (hjobs : ∀ j ∈ jobs, Running s.config_ j) :
    (jobs.foldl (evictBody failed now_us) s).removeEvicted.Wf ∧
      ∀ id, (jobs.foldl (evictBody failed now_us) s).removeEvicted.occurrences id =
        s.removeEvicted.occurrences id + copies id jobs := by
  induction jobs generalizing s with
  | nil => exact ⟨h, fun id => rfl⟩
  | cons job rest ih =>
    obtain ⟨hjob, hrest⟩ := List.forall_mem_cons.mp hjobs
    obtain ⟨hbody, hcount⟩ := evictBody_wf h hjob failed now_us
    rw [← (evictBody_fixed failed now_us s job).1] at hrest
    obtain ⟨hloop, hloopCount⟩ := ih hbody hrest
    refine ⟨hloop, fun id => ?_⟩
    rw [List.foldl_cons, hloopCount id, hcount id]
    simp only [copies_cons, copies_nil]
    omega

theorem Wf.evict_node (h : s.Wf) (failed : UInt16) (now_us : UInt64 → UInt64) :
    (s.evict_node failed now_us).Wf ∧ ∀ id, (s.evict_node failed now_us).occurrences id = s.occurrences id := by
  have hstart : ({ s with active_ := [] } : Scheduler).removeEvicted.Wf :=
    ⟨h.queue, fun j hj => absurd hj List.not_mem_nil, h.history⟩
  obtain ⟨hwf, hcount⟩ := evictLoop_wf failed now_us hstart h.active
  refine ⟨hwf, fun id => (hcount id).trans ?_⟩
  simp only [occurrences, removeEvicted, copies_append, List.filter_nil, copies_nil]
  omega

/-! ### Runs -/

/-- The scheduler with a record of what its users have been told. -/
structure Ledger where
  scheduler : Scheduler
  /-- The ids that `submit` has returned (ghost). -/
  returned : List UInt64
  /-- The ids of the jobs that were cancelled while they were queued (ghost). -/
  withdrawn : List UInt64

inductive Act where
  | submit (job : JobDescriptor) (now_us : UInt64)
  | cancel (job_id : UInt64) (now_us : UInt64)
  | complete (job_id : UInt64) (success : Bool) (now_us : UInt64)
  | tick (order : List JobDescriptor) (online_nodes : List UInt16) (node_loads : List NodeLoad)
      (now_us : UInt64 → UInt64)
  | evict (failed_node_id : UInt16) (now_us : UInt64 → UInt64)

inductive Step : Ledger → Act → Ledger → Prop where
  | submit (s : Ledger) (job : JobDescriptor) (now_us : UInt64) :
      Step s (.submit job now_us)
        { s with
          scheduler := (s.scheduler.submit job now_us).2
          returned := (s.scheduler.submit job now_us).1 :: s.returned }
  | cancel (s : Ledger) (id now_us : UInt64) :
      Step s (.cancel id now_us)
        { s with
          scheduler := (s.scheduler.cancel id now_us).2
          withdrawn := if (takeJob id s.scheduler.queue_).isSome then id :: s.withdrawn else s.withdrawn }
  | complete (s : Ledger) (id : UInt64) (success : Bool) (now_us : UInt64) :
      Step s (.complete id success now_us) { s with scheduler := (s.scheduler.complete id success now_us).2 }
  | tick {s : Ledger} {order : List JobDescriptor} (h : SortOf s.scheduler.queue_ order)
      (online : List UInt16) (loads : List NodeLoad) (now_us : UInt64 → UInt64) :
      Step s (.tick order online loads now_us)
        { s with scheduler := (s.scheduler.schedule_tick order online loads now_us).2 }
  | evict (s : Ledger) (failed : UInt16) (now_us : UInt64 → UInt64) :
      Step s (.evict failed now_us) { s with scheduler := s.scheduler.evict_node failed now_us }

def system (config : Config) : System Ledger Act := ⟨fun s => s = ⟨{ config_ := config }, [], []⟩, Step⟩

/-- Every id that has been handed out, unless it was withdrawn, occurs once, and
    every job has a status of the container it is in. -/
structure Conserved (s : Ledger) : Prop where
  once : ∀ id ∈ s.returned, id ∉ s.withdrawn → s.scheduler.occurrences id = 1
  queue : ∀ j ∈ s.scheduler.queue_, j.status = .PENDING ∨ j.status = .RESCHEDULING
  active : ∀ j ∈ s.scheduler.active_, j.status = .RUNNING
  history : ∀ j ∈ s.scheduler.history_, j.status = .COMPLETED ∨ j.status = .FAILED

/-- A submitted job asks for a node where preemption is on, and the 64-bit
    counter of ids has not wrapped. -/
def Sizable (s : Ledger) : Act → Prop
  | .submit job _ => Asks s.scheduler.config_ job ∧ s.scheduler.next_job_id_ ≠ 0
  | _ => True

structure Inv (s : Ledger) : Prop where
  wf : s.scheduler.Wf
  count : ∀ id, s.scheduler.occurrences id = if id ∈ s.returned ∧ id ∉ s.withdrawn then 1 else 0
  withdrawn : ∀ id ∈ s.withdrawn, id ∈ s.returned
  fresh : s.scheduler.next_job_id_ ≠ 0 → ∀ id ∈ s.returned, id < s.scheduler.next_job_id_

theorem Inv.conserved {s : Ledger} (h : Inv s) : Conserved s where
  once id hid hw := by rw [h.count, if_pos ⟨hid, hw⟩]
  queue j hj := (h.wf.queue j hj).status
  active j hj := (h.wf.active j hj).status
  history := h.wf.history

/-- Moves between the containers keep the invariant. -/
theorem Inv.move {s : Ledger} (h : Inv s) {t : Scheduler} (hwf : t.Wf)
    (hcount : ∀ id, t.occurrences id = s.scheduler.occurrences id)
    (hnext : t.next_job_id_ = s.scheduler.next_job_id_) : Inv { s with scheduler := t } where
  wf := hwf
  count id := (hcount id).trans (h.count id)
  withdrawn := h.withdrawn
  fresh hne := by
    show ∀ id ∈ s.returned, id < t.next_job_id_
    rw [hnext]
    exact h.fresh (hnext ▸ hne)

theorem Wf.finish (h : s.Wf) {id : UInt64} {active : List JobDescriptor}
    (htake : takeJob id s.active_ = some (job, active)) {status : JobStatus}
    (hstatus : status = .COMPLETED ∨ status = .FAILED) (now_us : UInt64) (stats : TenantStats) :
    ({ s with
      active_ := active
      history_ := s.history_ ++ [markEnded job status now_us]
      tenant_stats_ := stats } : Scheduler).Wf ∧
    ∀ x, ({ s with
      active_ := active
      history_ := s.history_ ++ [markEnded job status now_us]
      tenant_stats_ := stats } : Scheduler).occurrences x = s.occurrences x := by
  obtain ⟨hperm, -⟩ := takeJob_some htake
  refine ⟨⟨h.queue, ?_, ?_⟩, fun x => ?_⟩
  · intro j hj
    exact h.active j (hperm.mem_iff.mpr (List.mem_cons_of_mem _ hj))
  · exact List.forall_mem_append.mpr ⟨h.history, List.forall_mem_singleton.mpr hstatus⟩
  · simp only [occurrences, copies_append, copies_perm hperm, copies_cons, copies_nil, markEnded]
    omega

theorem Inv.submit {s : Ledger} (h : Inv s) {now_us : UInt64}
    (hok : Sizable s (.submit job now_us)) :
    Inv { s with
      scheduler := (s.scheduler.submit job now_us).2
      returned := (s.scheduler.submit job now_us).1 :: s.returned } := by
  obtain ⟨hasks, hne⟩ := hok
  -- the id has not been returned before
  have hnew : s.scheduler.next_job_id_ ∉ s.returned := by
    intro hmem
    exact UInt64.lt_irrefl _ (h.fresh hne _ hmem)
  have hnewWithdrawn : s.scheduler.next_job_id_ ∉ s.withdrawn := fun hmem => hnew (h.withdrawn _ hmem)
  refine ⟨⟨?_, h.wf.active, h.wf.history⟩, fun id => ?_, fun id hid => ?_, fun hnext id hid => ?_⟩
  · exact List.forall_mem_append.mpr ⟨h.wf.queue, List.forall_mem_singleton.mpr ⟨.inl rfl, hasks⟩⟩
  · have hbefore := h.count id
    simp only [occurrences, Scheduler.submit, copies_append, copies_cons, copies_nil, List.mem_cons] at hbefore ⊢
    by_cases heq : s.scheduler.next_job_id_ = id
    · subst heq
      simp only [hnew, false_and, if_false] at hbefore
      simp only [hnewWithdrawn, if_true, true_or, not_false_eq_true, and_self]
      omega
    · simp only [heq, if_false, Ne.symm heq, false_or]
      omega
  · exact List.mem_cons_of_mem _ (h.withdrawn id hid)
  · -- a counter that has not wrapped is above every id it has handed out
    have hbound : s.scheduler.next_job_id_ < s.scheduler.next_job_id_ + 1 := by
      have hpos : (s.scheduler.next_job_id_ + 1).toNat ≠ 0 := fun h0 => hnext (UInt64.toNat_inj.mp h0)
      rw [UInt64.toNat_add] at hpos
      rw [UInt64.lt_iff_toNat_lt, UInt64.toNat_add]
      have hlt := s.scheduler.next_job_id_.toNat_lt
      change (s.scheduler.next_job_id_.toNat + 1) % 2 ^ 64 ≠ 0 at hpos
      change s.scheduler.next_job_id_.toNat < (s.scheduler.next_job_id_.toNat + 1) % 2 ^ 64
      omega
    rcases List.mem_cons.mp hid with rfl | hid
    · exact hbound
    · exact UInt64.lt_trans (h.fresh hne id hid) hbound

theorem Inv.cancel {s : Ledger} (h : Inv s) (id now_us : UInt64) :
    Inv { s with
      scheduler := (s.scheduler.cancel id now_us).2
      withdrawn := if (takeJob id s.scheduler.queue_).isSome then id :: s.withdrawn else s.withdrawn } := by
  cases hqueue : takeJob id s.scheduler.queue_ with
  | none =>
    simp only [Scheduler.cancel, hqueue, Option.isSome_none, Bool.false_eq_true, if_false]
    cases hactive : takeJob id s.scheduler.active_ with
    | none => exact h
    | some found =>
      obtain ⟨job, active⟩ := found
      obtain ⟨hwf, hcount⟩ := h.wf.finish hactive (.inr rfl) now_us s.scheduler.tenant_stats_
      exact h.move hwf hcount rfl
  | some found =>
    obtain ⟨job, queue⟩ := found
    obtain ⟨hperm, hid⟩ := takeJob_some hqueue
    -- the cancelled job is the only one with its id
    have hone : s.scheduler.occurrences id = 1 := by
      have hle : 1 ≤ s.scheduler.occurrences id := by
        simp only [occurrences, copies_append, copies_perm hperm, copies_cons, hid, if_true]
        omega
      have hcount := h.count id
      split at hcount <;> omega
    have hmem : id ∈ s.returned ∧ id ∉ s.withdrawn := by
      have hcount := h.count id
      by_contra hno
      rw [if_neg hno] at hcount
      omega
    simp only [Scheduler.cancel, hqueue, Option.isSome_some, if_true]
    refine ⟨⟨?_, h.wf.active, h.wf.history⟩, fun x => ?_, ?_, h.fresh⟩
    · intro j hj
      exact h.wf.queue j (hperm.mem_iff.mpr (List.mem_cons_of_mem _ hj))
    · have hbefore := h.count x
      simp only [occurrences, copies_append, copies_perm hperm, copies_cons, hid] at hbefore hone ⊢
      by_cases heq : id = x
      · subst heq
        simp only [if_true, List.mem_cons, true_or, not_true_eq_false, and_false, if_false] at hone ⊢
        omega
      · simp only [heq, if_false, List.mem_cons, Ne.symm heq, false_or] at hbefore ⊢
        omega
    · exact List.forall_mem_cons.mpr ⟨hmem.1, h.withdrawn⟩

theorem Inv.step {s s' : Ledger} {a : Act} (h : Inv s) (hok : Sizable s a) (hs : Step s a s') : Inv s' := by
  cases hs with
  | submit job now_us => exact h.submit hok
  | cancel id now_us => exact h.cancel id now_us
  | complete id success now_us =>
    simp only [Scheduler.complete]
    cases hactive : takeJob id s.scheduler.active_ with
    | none => exact h
    | some found =>
      obtain ⟨job, active⟩ := found
      have hstatus : (if success then JobStatus.COMPLETED else .FAILED) = .COMPLETED ∨
          (if success then JobStatus.COMPLETED else .FAILED) = .FAILED := by
        cases success <;> simp
      obtain ⟨hwf, hcount⟩ := h.wf.finish hactive hstatus now_us _
      exact h.move hwf hcount rfl
  | tick horder online loads now_us =>
    obtain ⟨hwf, hcount⟩ := h.wf.schedule_tick horder online loads now_us
    exact h.move hwf hcount (schedule_tick_next ..)
  | evict failed now_us =>
    obtain ⟨hwf, hcount⟩ := h.wf.evict_node failed now_us
    exact h.move hwf hcount (evict_node_next ..)

theorem inv_of_reach {config : Config} {s : Ledger} (h : (system config).Reach Sizable s) : Inv s := by
  refine h.invariant ?_ fun s a s' => Inv.step
  rintro s rfl
  have hempty : ∀ P : JobDescriptor → Prop, ∀ j ∈ ([] : List JobDescriptor), P j :=
    fun P j hj => absurd hj List.not_mem_nil
  refine ⟨⟨hempty _, hempty _, hempty _⟩, fun id => ?_, ?_, ?_⟩
  · simp [occurrences]
  · simp
  · simp

/-- **Conservation of jobs**: no job is lost or duplicated in a run in which every
    job that is submitted while preemption is on asks for a node. -/
theorem conserved_of_reach {config : Config} {s : Ledger} (h : (system config).Reach Sizable s) :
    Conserved s :=
  (inv_of_reach h).conserved

/-- A job that one node can take. -/
def single : JobDescriptor := { requested_nodes := 1, memory_per_node := 4 }

/-- The job runs after the first tick. -/
theorem conserved_single : ∃ s, (system { memory_per_node := 8 }).Reach Sizable s ∧
    s.returned = [1] ∧ s.scheduler.active_.length = 1 ∧ Conserved s := by
  have hinit : (system { memory_per_node := 8 }).Reach Sizable _ := .init rfl
  have hsubmit := hinit.next (.submit _ single 0) ⟨fun _ => by decide, by decide⟩
  have htick := hsubmit.next (.tick
    ⟨.refl _, List.pairwise_singleton ..⟩ [0] [{}] fun _ => 1)
  exact ⟨_, htick, rfl, by decide, conserved_of_reach htick⟩

theorem evictLoop_history (failed : UInt16) (now_us : UInt64 → UInt64) (jobs : List JobDescriptor) (s : Scheduler) :
    s.history_ <+: (jobs.foldl (evictBody failed now_us) s).history_ := by
  induction jobs generalizing s with
  | nil => exact List.prefix_rfl
  | cons job rest ih =>
    refine List.IsPrefix.trans ?_ (ih _)
    simp only [evictBody]
    repeat' split
    · exact List.prefix_append ..
    · exact List.prefix_rfl
    · exact List.prefix_rfl

theorem Step.history {s s' : Ledger} {a : Act} (h : Step s a s') :
    s.scheduler.history_ <+: s'.scheduler.history_ := by
  cases h with
  | submit => exact List.prefix_rfl
  | cancel =>
    simp only [Scheduler.cancel]
    repeat' split
    all_goals simp
  | complete =>
    simp only [Scheduler.complete]
    split <;> simp
  | tick =>
    simp only [schedule_tick, preempt]
    split <;> exact List.prefix_rfl
  | evict failed now_us =>
    exact evictLoop_history failed now_us s.scheduler.active_ { s.scheduler with active_ := [] }

/-- **What has ended stays ended**: the history keeps every record as it is, and no job
    in it is queued or started again. -/
theorem ended_jobs_final {config : Config} {s s' : Ledger} {l : List Act} (hs : (system config).Steps s l s')
    (h : (system config).Reach Sizable s') :
    s.scheduler.history_ <+: s'.scheduler.history_ ∧ ∀ j ∈ s.scheduler.history_,
      ∀ j' ∈ s'.scheduler.queue_ ++ s'.scheduler.active_, j'.job_id ≠ j.job_id := by
  have hpre : s.scheduler.history_ <+: s'.scheduler.history_ := by
    induction hs with
    | nil => exact List.prefix_rfl
    | cons hstep _ ih => exact (Step.history hstep).trans (ih h)
  refine ⟨hpre, fun j hj j' hj' heq => ?_⟩
  -- its id would occur twice
  have hcount := (inv_of_reach h).count j.job_id
  have hpos : 0 < copies j.job_id s'.scheduler.history_ :=
    List.countP_pos_iff.mpr ⟨j, hpre.subset hj, by simp⟩
  have hpos' : 0 < copies j.job_id (s'.scheduler.queue_ ++ s'.scheduler.active_) :=
    List.countP_pos_iff.mpr ⟨j', hj', by simpa using heq⟩
  rw [occurrences, copies_append] at hcount
  split at hcount <;> omega

/-- The job has completed, and then it is submitted again. -/
theorem ended_jobs_final_single : ∃ s s' : Ledger, s.scheduler.history_.length = 1 ∧
    s'.scheduler.queue_.length = 1 ∧ s.scheduler.history_ <+: s'.scheduler.history_ ∧
    ∀ j ∈ s.scheduler.history_, ∀ j' ∈ s'.scheduler.queue_ ++ s'.scheduler.active_, j'.job_id ≠ j.job_id := by
  have hinit : (system { memory_per_node := 8 }).Reach Sizable _ := .init rfl
  have hsubmit := hinit.next (.submit _ single 0) ⟨fun _ => by decide, by decide⟩
  have htick := hsubmit.next (.tick ⟨.refl _, List.pairwise_singleton ..⟩ [0] [{}] fun _ => 1)
  have hdone := htick.next (.complete _ 1 true 2)
  have hagain := hdone.next (.submit _ single 3) ⟨fun _ => by decide, by decide⟩
  exact ⟨_, _, by decide, by decide, ended_jobs_final (.cons (.submit _ single 3) (.nil _)) hagain⟩

/-- A job that asks for no node. -/
def idle : JobDescriptor := { requested_nodes := 0 }

/-- A job that may evict others. -/
def urgent : JobDescriptor := { requested_nodes := 1, priority := .HIGH }

/-- The idle job is started without nodes. The urgent job finds no node in the
    next tick, and the clean-up that follows erases the idle one. -/
theorem tick_erases_idle : ∃ s, (system {}).Reachable s ∧ 1 ∈ s.returned ∧ 1 ∉ s.withdrawn ∧
    s.scheduler.occurrences 1 = 0 := by
  have hinit : (system {}).Reachable _ := .init rfl
  have hsubmit := hinit.next (.submit _ idle 0)
  have htick := hsubmit.next (.tick ⟨.refl _, List.pairwise_singleton ..⟩ [] [] fun _ => 1)
  have hurgent := htick.next (.submit _ urgent 2)
  have hclean := hurgent.next (.tick ⟨.refl _, List.pairwise_singleton ..⟩ [] [] fun _ => 3)
  exact ⟨_, hclean, by decide, by decide, by decide⟩

/-! ## Reserved Memory -/

/-- The memory that the given jobs need on a node. -/
def reserved (nid : UInt16) (jobs : List JobDescriptor) : Nat :=
  (jobs.map fun j => if nid ∈ j.assigned_nodes then j.memory_per_node.toNat else 0).sum

section Reserved

variable {nid : UInt16} {job : JobDescriptor} {l l' : List JobDescriptor}

@[simp] theorem reserved_nil : reserved nid [] = 0 := rfl

theorem reserved_cons :
    reserved nid (job :: l) = (if nid ∈ job.assigned_nodes then job.memory_per_node.toNat else 0) + reserved nid l := by
  simp [reserved]

theorem reserved_append : reserved nid (l ++ l') = reserved nid l + reserved nid l' := by
  simp [reserved]

theorem reserved_perm (h : l.Perm l') : reserved nid l = reserved nid l' := (h.map _).sum_nat

theorem reserved_sublist (h : l.Sublist l') : reserved nid l ≤ reserved nid l' := by
  induction h with
  | slnil => exact Nat.le_refl _
  | cons j _ ih => exact Nat.le_trans ih (by rw [reserved_cons]; omega)
  | cons_cons j _ ih =>
    rw [reserved_cons, reserved_cons]
    omega

theorem reserved_takeJob {id : UInt64} (h : takeJob id l = some (job, l')) : reserved nid l' ≤ reserved nid l := by
  rw [reserved_perm (takeJob_some h).1, reserved_cons]
  omega

end Reserved

/-- The loads of a tick account for everything that is reserved on the online
    nodes. -/
def Covers (online : List UInt16) (loads : List NodeLoad) (need : UInt16 → Nat) : Prop :=
  ∀ nid ∈ online, ∀ load, loads[nid.toNat]? = some load → need nid ≤ load.memory_used.toNat

/-- The sums of `can_allocate` and `allocate` for `job` do not wrap. -/
def Safe (config : Config) (loads : List NodeLoad) (job : JobDescriptor) : Prop :=
  config.memory_per_node.toNat + job.memory_per_node.toNat < 2 ^ 64 ∧
    ∀ load ∈ loads, load.memory_used.toNat + job.memory_per_node.toNat < 2 ^ 64

section Loads

variable {config : Config} {online : List UInt16} {now_us : UInt64 → UInt64} {job : JobDescriptor}
  {loads : List NodeLoad} {load : NodeLoad} {need : UInt16 → Nat}

theorem fits_reserve (hsafe : Safe config loads job)
    (hload : load ∈ loads) (hfits : fits config job load = true) :
    (NodeLoad.reserve job load).memory_used.toNat = load.memory_used.toNat + job.memory_per_node.toNat ∧
      load.memory_used.toNat + job.memory_per_node.toNat ≤ config.memory_per_node.toNat := by
  have hadd : (load.memory_used + job.memory_per_node).toNat =
      load.memory_used.toNat + job.memory_per_node.toNat := by
    rw [UInt64.toNat_add]
    exact Nat.mod_eq_of_lt (hsafe.2 load hload)
  refine ⟨hadd, ?_⟩
  have hle := UInt64.le_iff_toNat_le.mp (of_decide_eq_true hfits)
  rwa [hadd] at hle

/-- A reservation leaves room for the sums of every other job. -/
theorem Safe.set {job' : JobDescriptor} {i : Nat}
    (hsafe : Safe config loads job') (hle : load.memory_used.toNat ≤ config.memory_per_node.toNat) :
    Safe config (loads.set i load) job' := by
  refine ⟨hsafe.1, fun l hl => ?_⟩
  rcases List.mem_or_eq_of_mem_set hl with hl | rfl
  · exact hsafe.2 l hl
  · have hroom := hsafe.1
    omega

theorem Covers.reserve {assigned : List UInt16} {nid : UInt16}
    (h : Covers online loads fun n => need n + if n ∈ assigned then job.memory_per_node.toNat else 0)
    (hload : loads[nid.toNat]? = some load) (hneed : need nid ≤ load.memory_used.toNat)
    (hused : (NodeLoad.reserve job load).memory_used.toNat =
      load.memory_used.toNat + job.memory_per_node.toNat) :
    Covers online (loads.set nid.toNat (NodeLoad.reserve job load)) fun n =>
      need n + if n ∈ assigned ++ [nid] then job.memory_per_node.toNat else 0 := by
  intro n hn l hl
  show need n + (if n ∈ assigned ++ [nid] then job.memory_per_node.toNat else 0) ≤ _
  by_cases heq : n = nid
  · subst heq
    rw [List.getElem?_set_self (List.getElem?_eq_some_iff.mp hload).1] at hl
    cases hl
    rw [if_pos (by simp), hused]
    omega
  · have hne : nid.toNat ≠ n.toNat := fun h => heq (UInt16.toNat_inj.mp h.symm)
    rw [List.getElem?_set_ne hne] at hl
    simpa [heq] using h n hn l hl

/-- What the loop of `allocate` maintains: the nodes already assigned have room
    for the job, and the loads count it. -/
theorem allocateLoop_covers {nodes assigned : List UInt16}
    (hsub : ∀ n ∈ nodes, n ∈ online) (hsafe : Safe config loads job)
    (hcovers : Covers online loads fun n => need n + if n ∈ assigned then job.memory_per_node.toNat else 0)
    (hroom : ∀ n ∈ assigned, need n + job.memory_per_node.toNat ≤ config.memory_per_node.toNat) :
    (Covers online (allocateLoop config job nodes assigned loads).2 fun n =>
      need n + if n ∈ (allocateLoop config job nodes assigned loads).1 then job.memory_per_node.toNat else 0) ∧
    (∀ n ∈ (allocateLoop config job nodes assigned loads).1,
      need n + job.memory_per_node.toNat ≤ config.memory_per_node.toNat) ∧
    ∀ job', Safe config loads job' → Safe config (allocateLoop config job nodes assigned loads).2 job' := by
  induction nodes generalizing assigned loads with
  | nil => exact ⟨hcovers, hroom, fun _ h => h⟩
  | cons nid rest ih =>
    have hsub' := (List.forall_mem_cons.mp hsub).2
    simp only [allocateLoop]
    split
    · exact ⟨hcovers, hroom, fun _ h => h⟩
    -- a node without a load, or without room, is passed over
    split
    · exact ih hsub' hsafe hcovers hroom
    rename_i load hload
    split
    · -- the node is assigned and its load grows
      rename_i hfits
      have hmem : load ∈ loads := List.mem_of_getElem? hload
      obtain ⟨hused, hle⟩ := fits_reserve hsafe hmem hfits
      have hneed : need nid ≤ load.memory_used.toNat :=
        Nat.le_trans (Nat.le_add_right ..) (hcovers nid (hsub nid List.mem_cons_self) load hload)
      have hkeep : ∀ job', Safe config loads job' →
          Safe config (loads.set nid.toNat (NodeLoad.reserve job load)) job' := by
        intro job' h'
        exact h'.set (hused ▸ hle)
      have hroom' : ∀ n ∈ assigned ++ [nid],
          need n + job.memory_per_node.toNat ≤ config.memory_per_node.toNat := by
        refine List.forall_mem_append.mpr ⟨hroom, List.forall_mem_singleton.mpr ?_⟩
        omega
      obtain ⟨h1, h2, h3⟩ := ih hsub' (hkeep job hsafe) (hcovers.reserve hload hneed hused) hroom'
      exact ⟨h1, h2, fun job' h' => h3 job' (hkeep job' h')⟩
    · exact ih hsub' hsafe hcovers hroom

/-- The first loop of a tick, in which the loads cover what is needed before it,
    leaves no node overcommitted. -/
theorem startLoop_reserved {queue : List JobDescriptor}
    (hsafe : ∀ j ∈ queue, Safe config loads j) (hcovers : Covers online loads need)
    (hle : ∀ n, need n ≤ config.memory_per_node.toNat) (n : UInt16) :
    need n + reserved n (startLoop config online now_us queue loads).started ≤ config.memory_per_node.toNat := by
  induction queue generalizing need loads with
  | nil => exact hle n
  | cons job rest ih =>
    obtain ⟨hjob, hrest⟩ := List.forall_mem_cons.mp hsafe
    simp only [startLoop]
    split
    · have hbefore : Covers online loads fun n =>
          need n + if n ∈ ([] : List UInt16) then job.memory_per_node.toNat else 0 := by
        simpa using hcovers
      obtain ⟨h1, h2, h3⟩ := allocateLoop_covers (fun _ hn => hn) hjob hbefore
        (fun _ hn => absurd hn List.not_mem_nil)
      have hle' : ∀ m, (need m +
          if m ∈ (allocateLoop config job online [] loads).1 then job.memory_per_node.toNat else 0) ≤
            config.memory_per_node.toNat := by
        intro m
        split
        · exact h2 m ‹_›
        · exact hle m
      -- from here on the started job is part of what is needed
      have hnext := ih (fun j hj => h3 j (hrest j hj)) h1 hle'
      rw [reserved_cons, ← Nat.add_assoc]
      exact hnext
    · exact ih hrest hcovers hle

theorem preemptLoop_sublist (jobs : List JobDescriptor) (p : Preemption) :
    (jobs.foldl (preemptBody config online now_us) p).active.Sublist p.active := by
  induction jobs generalizing p with
  | nil => exact List.Sublist.refl _
  | cons job rest ih =>
    refine (ih _).trans ?_
    rcases preemptBody_cases p with heq | heq | ⟨l₁, victim, l₂, hl, heq⟩ <;> rw [heq]
    · exact List.filter_sublist
    · rw [hl]
      exact List.filter_sublist.trans ((List.Sublist.refl l₁).append (List.sublist_cons_self ..))

end Loads

theorem schedule_tick_reserved {order : List JobDescriptor} (horder : SortOf s.queue_ order)
    {online : List UInt16} {loads : List NodeLoad} (hsafe : ∀ j ∈ s.queue_, Safe s.config_ loads j)
    (hcovers : Covers online loads fun n => reserved n s.active_)
    (hle : ∀ n, reserved n s.active_ ≤ s.config_.memory_per_node.toNat) (now_us : UInt64 → UInt64)
    (n : UInt16) :
    reserved n (s.schedule_tick order online loads now_us).2.active_ ≤ s.config_.memory_per_node.toNat := by
  have hboost : ∀ j ∈ order.map (boost s.tenant_stats_), Safe s.config_ loads j := by
    intro j hj
    obtain ⟨k, hk, rfl⟩ := List.mem_map.mp hj
    have hk' := hsafe k (horder.1.mem_iff.mp hk)
    simpa only [Safe, boost_memory] using hk'
  have hstarted : reserved n (s.active_ ++ (startLoop s.config_ online now_us
      (order.map (boost s.tenant_stats_)) loads).started) ≤ s.config_.memory_per_node.toNat := by
    rw [reserved_append]
    exact startLoop_reserved hboost hcovers hle n
  -- the preemption loop only takes active jobs away
  simp only [schedule_tick, preempt]
  split
  · exact Nat.le_trans (reserved_sublist (preemptLoop_sublist ..)) hstarted
  · exact hstarted

theorem evictLoop_sublist (failed : UInt16) (now_us : UInt64 → UInt64) (jobs : List JobDescriptor) (s : Scheduler) :
    (jobs.foldl (evictBody failed now_us) s).removeEvicted.active_.Sublist (s.removeEvicted.active_ ++ jobs) := by
  induction jobs generalizing s with
  | nil => simp
  | cons job rest ih =>
    refine (ih _).trans ?_
    have hbody : (evictBody failed now_us s job).removeEvicted.active_.Sublist (s.removeEvicted.active_ ++ [job]) := by
      simp only [evictBody]
      split
      · split
        · simp [removeEvicted, stays, List.filter_append]
        · simp [removeEvicted, stays, List.filter_append]
      · simp only [removeEvicted, List.filter_append]
        exact (List.Sublist.refl _).append List.filter_sublist
    simpa using hbody.append (List.Sublist.refl rest)

theorem evict_node_sublist (s : Scheduler) (failed : UInt16) (now_us : UInt64 → UInt64) :
    (s.evict_node failed now_us).active_.Sublist s.active_ :=
  evictLoop_sublist failed now_us s.active_ { s with active_ := [] }

end Scheduler

end Mccl
