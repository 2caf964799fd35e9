import Mccl.Runtime.Scheduler

/-! # Preemption

    The second half of `Scheduler::schedule_tick`: a waiting HIGH or CRITICAL job
    that finds no room sends a running LOW job back to the queue, and then tries
    again.

    * `preemptions`: for whom the loop evicts, and whom.
    * `schedule_tick_queue`: the queue after a tick has exactly the evicted jobs
      in front of those that were not started.
    * `preemption_pays_off_iff`: an eviction never helps. The second attempt looks
      at the loads of the first, from which nothing has been taken off. -/

namespace Mccl.Scheduler

variable (config : Config) (online : List UInt16) (now_us : UInt64 → UInt64)

/-! ## Evictions -/

/-- The job that the turn of the loop for `job` evicts. -/
def victimFor (p : Preemption) (job : JobDescriptor) : Option JobDescriptor :=
  if job.priority.value < JobPriority.HIGH.value then none
  else if can_allocate config job online p.node_loads then none
  else (evictLow job p.active).map Prod.fst

/-- The evictions of the loop over the given jobs, each with the job on behalf of
    which it is made. -/
def preemptions : List JobDescriptor → Preemption → List (JobDescriptor × JobDescriptor)
  | [], _ => []
  | job :: rest, p =>
    ((victimFor config online p job).map fun victim => (job, victim)).toList ++
      preemptions rest (preemptBody config online now_us p job)

variable {config online now_us}

/-- One turn of the loop: the job stays queued and the loads stay as they are,
    whether somebody is evicted for it or not. -/
theorem preemptBody_eq (p : Preemption) (job : JobDescriptor) :
    (preemptBody config online now_us p job).visited = p.visited ++ [job] ∧
    (preemptBody config online now_us p job).pushed =
      ((victimFor config online p job).map fun victim => { victim with status := .RESCHEDULING }).toList ++
        p.pushed := by
  unfold preemptBody victimFor
  split
  · exact ⟨rfl, rfl⟩
  split
  · exact ⟨rfl, rfl⟩
  case isFalse.isFalse hcan =>
    cases hevict : evictLow job p.active with
    | none => simp [preemptFor, hevict]
    | some found =>
      -- `hcan` is about the same loads as the second attempt
      simp [preemptFor, hevict, hcan]

theorem preemptLoop_visited (jobs : List JobDescriptor) (p : Preemption) :
    (jobs.foldl (preemptBody config online now_us) p).visited = p.visited ++ jobs := by
  induction jobs generalizing p with
  | nil => simp
  | cons job rest ih =>
    rw [List.foldl_cons, ih, (preemptBody_eq p job).1, List.append_assoc]
    rfl

theorem preemptLoop_pushed (jobs : List JobDescriptor) (p : Preemption) :
    (jobs.foldl (preemptBody config online now_us) p).pushed =
      ((preemptions config online now_us jobs p).map fun e => { e.2 with status := .RESCHEDULING }).reverse ++
        p.pushed := by
  induction jobs generalizing p with
  | nil => simp [preemptions]
  | cons job rest ih =>
    rw [List.foldl_cons, ih, (preemptBody_eq p job).2, preemptions, List.map_append, List.reverse_append,
      List.append_assoc]
    congr 1
    cases victimFor config online p job with
    | none => rfl
    | some victim => rfl

/-- Evictions are made for jobs in the queue. -/
theorem mem_of_mem_preemptions {jobs : List JobDescriptor} {p : Preemption} {e : JobDescriptor × JobDescriptor}
    (h : e ∈ preemptions config online now_us jobs p) : e.1 ∈ jobs := by
  induction jobs generalizing p with
  | nil => cases h
  | cons job rest ih =>
    rw [preemptions] at h
    rcases List.mem_append.mp h with h | h
    · obtain ⟨victim, -, rfl⟩ := Option.map_eq_some_iff.mp (Option.mem_toList.mp h)
      exact List.mem_cons_self
    · exact List.mem_cons_of_mem _ (ih h)

/-! ## The Tick -/

section Tick

variable (s : Scheduler) (order : List JobDescriptor) (online : List UInt16) (loads : List NodeLoad)
  (now_us : UInt64 → UInt64)

/-- What the first loop of the tick has started and left. -/
def tickStarted : Started :=
  startLoop s.config_ online now_us (order.map (boost s.tenant_stats_)) loads

/-- The evictions of a tick. -/
def tickPreemptions : List (JobDescriptor × JobDescriptor) :=
  let r := tickStarted s order online loads now_us
  if s.config_.preemption_enabled then
    preemptions s.config_ online now_us r.left ⟨[], [], s.active_ ++ r.started, r.node_loads, r.started.length⟩
  else []

/-- The evicted jobs, the last one first, and then the jobs that were not started. -/
theorem schedule_tick_queue : (s.schedule_tick order online loads now_us).2.queue_ =
    ((tickPreemptions s order online loads now_us).map fun e => { e.2 with status := .RESCHEDULING }).reverse ++
      (tickStarted s order online loads now_us).left := by
  unfold schedule_tick preempt tickPreemptions tickStarted
  dsimp only
  split
  case isTrue => rw [preemptLoop_pushed, preemptLoop_visited, List.append_nil, List.nil_append]
  case isFalse => rfl

/-- The job is active with all its nodes, and not queued. -/
def Runs (s : Scheduler) (job : JobDescriptor) : Prop :=
  (∃ j ∈ s.active_, j.job_id = job.job_id ∧ j.assigned_nodes.length = job.requested_nodes.toNat) ∧
    ∀ j ∈ s.queue_, j.job_id ≠ job.job_id

/-- Whoever a job has been evicted for runs when the tick returns. -/
def PaysOff : Prop :=
  ∀ e ∈ tickPreemptions s order online loads now_us, Runs (s.schedule_tick order online loads now_us).2 e.1

variable {s order online loads now_us}

/-- Whoever a job has been evicted for is still queued. -/
theorem mem_queue_of_preempted {e : JobDescriptor × JobDescriptor} (h : e ∈ tickPreemptions s order online loads now_us) :
    e.1 ∈ (s.schedule_tick order online loads now_us).2.queue_ := by
  rw [schedule_tick_queue]
  apply List.mem_append_right
  unfold tickPreemptions at h
  dsimp only at h
  split at h
  · exact mem_of_mem_preemptions h
  · cases h

/-- One eviction, and preemption has not paid off. -/
theorem not_paysOff (h : tickPreemptions s order online loads now_us ≠ []) : ¬PaysOff s order online loads now_us := by
  intro hpays
  obtain ⟨e, he⟩ := List.exists_mem_of_ne_nil _ h
  exact (hpays e he).2 e.1 (mem_queue_of_preempted he) rfl

variable (s order online loads now_us)

/-- **Preemption pays off** in a tick if and only if the tick evicts nobody. -/
theorem preemption_pays_off_iff :
    PaysOff s order online loads now_us ↔ tickPreemptions s order online loads now_us = [] := by
  constructor
  · intro hpays
    by_contra hsome
    exact not_paysOff hsome hpays
  · intro hnone e he
    rw [hnone] at he
    cases he

end Tick

/-- A job of low priority that fills a node. -/
def lowJob : JobDescriptor := { requested_nodes := 1, memory_per_node := 8, priority := .LOW }

/-- A job of high priority that needs the whole node. -/
def highJob : JobDescriptor := { requested_nodes := 1, memory_per_node := 8, priority := .HIGH }

/-- The LOW job 1 runs on node 0 and fills it. On behalf of the HIGH job 2 it is
    evicted, and nothing runs when the tick returns. -/
theorem preempted_for_nothing : ∃ s : Ledger, (system { memory_per_node := 8 }).Reachable s ∧
    (s.scheduler.active_.map fun j => j.job_id) = [1] ∧
    ((tickPreemptions s.scheduler s.scheduler.queue_ [0] [⟨8, 1⟩] fun _ => 4).map fun e =>
      (e.1.job_id, e.2.job_id)) = [(2, 1)] ∧
    (s.scheduler.schedule_tick s.scheduler.queue_ [0] [⟨8, 1⟩] fun _ => 4).2.active_ = [] ∧
    ¬PaysOff s.scheduler s.scheduler.queue_ [0] [⟨8, 1⟩] fun _ => 4 := by
  have hinit : (system { memory_per_node := 8 }).Reachable _ := .init rfl
  have hlow := hinit.next (.submit _ lowJob 0)
  have htick := hlow.next (.tick ⟨.refl _, List.pairwise_singleton ..⟩ [0] [{}] fun _ => 1)
  have hhigh := htick.next (.submit _ highJob 2)
  exact ⟨_, hhigh, by decide, by decide, by decide, not_paysOff (by decide)⟩

end Mccl.Scheduler
