import Mccl.Framework.System

/-! # The Progress Engine

    Model of `backend/Progress.cpp`: the queue of tasks, its worker thread, any
    number of threads that submit, and the owner that shuts the engine down.

    * **Steps**: one for every action that another thread can observe. The body
      of `submit` under `mu_` is one step, since nothing else happens while the
      mutex is held; so the mutex is held by the worker or by nobody.
    * **Exactly once, in order** (`shutdown_runs_all`): when `shutdown` has
      returned, the worker has run the tasks in the order of their submission.
    * **Lost wakeup** (`no_lost_wakeup`): `stop_` is set without the mutex, so
      `notify_all` can fall between the worker's test and its wait
      (`lost_wakeup`). Unless it does, the worker is not left asleep. -/

namespace Mccl.Progress

/-! ## State -/

/-- Where the worker is in `Progress::run`. -/
inductive Worker (T : Type) where
  /-- It is about to take the mutex. -/
  | locking
  /-- It holds the mutex and is about to evaluate `stop_ || !q_.empty()`. -/
  | testing
  /-- It holds the mutex; the predicate was false. -/
  | waiting
  /-- It sleeps in `cv_.wait`, without the mutex. -/
  | blocked
  /-- It has been woken and is about to take the mutex again. -/
  | notified
  /-- It holds the mutex; the predicate was true. -/
  | taking
  /-- It runs a task, without the mutex. -/
  | running (task : T)
  | returned

namespace Worker

variable {T : Type}

/-- The worker holds the mutex. -/
def Holds : Worker T → Prop
  | testing | waiting | taking => True
  | _ => False

/-- What a notification does to the worker: only a sleeping one notices. -/
def wake : Worker T → Worker T
  | blocked => notified
  | w => w

/-- The task that has left the queue and has not been run to its end. -/
def current : Worker T → List T
  | running task => [task]
  | _ => []

end Worker

/-- Where the owner is in `Progress::shutdown`. -/
inductive Owner where
  | idle
  /-- Before `stop_.exchange(true)`. -/
  | entered
  /-- This call has set `stop_`. -/
  | stopping
  /-- After `cv_.notify_all()`, in `t_.join()`. -/
  | joining
  | returned

structure State (T : Type) where
  q_ : List T
  stop_ : Bool
  worker : Worker T
  owner : Owner
  /-- The calls of `submit` that have pushed and not yet notified. -/
  notifying : Nat
  /-- The tasks in the order in which they were pushed (ghost). -/
  submitted : List T
  /-- The tasks that have been run, in order (ghost). -/
  executed : List T
  /-- What had been submitted when `shutdown` was first called (ghost). -/
  called : Option (List T)

/-! ## Steps -/

inductive Act (T : Type) where
  | submit (task : T)
  | notify_one
  | lock
  | test
  | wait
  /-- `cv_.wait` may wake up without a notification. -/
  | spurious
  | relock
  | take
  /-- The task returns, or throws and the exception is caught. -/
  | finish (threw : Bool)
  | shutdown
  | exchange
  | notify_all
  | join

variable {T : Type}

/-- The constructor starts the worker. -/
def init (s : State T) : Prop := s = ⟨[], false, .locking, .idle, 0, [], [], none⟩

inductive Step : State T → Act T → State T → Prop where
  | submit {s : State T} (task : T) (h : ¬ s.worker.Holds) : Step s (.submit task)
      { s with
        q_ := s.q_ ++ [task]
        submitted := s.submitted ++ [task]
        notifying := s.notifying + 1 }
  | notify_one {s : State T} (h : 0 < s.notifying) : Step s .notify_one
      { s with worker := s.worker.wake, notifying := s.notifying - 1 }
  | lock {s : State T} (h : s.worker = .locking) : Step s .lock { s with worker := .testing }
  | test {s : State T} (h : s.worker = .testing) : Step s .test
      { s with worker := if s.stop_ || !s.q_.isEmpty then .taking else .waiting }
  | wait {s : State T} (h : s.worker = .waiting) : Step s .wait { s with worker := .blocked }
  | spurious {s : State T} (h : s.worker = .blocked) : Step s .spurious
      { s with worker := .notified }
  | relock {s : State T} (h : s.worker = .notified) : Step s .relock { s with worker := .testing }
  | take {s : State T} {task : T} {q : List T} (h : s.worker = .taking) (hq : s.q_ = task :: q) :
      Step s .take { s with worker := .running task, q_ := q }
  | leave {s : State T} (h : s.worker = .taking) (hq : s.q_ = []) : Step s .take
      { s with worker := if s.stop_ then .returned else .locking }
  | finish {s : State T} {task : T} (threw : Bool) (h : s.worker = .running task) :
      Step s (.finish threw) { s with worker := .locking, executed := s.executed ++ [task] }
  | shutdown {s : State T} (h : s.owner = .idle ∨ s.owner = .returned) : Step s .shutdown
      { s with owner := .entered, called := s.called <|> some s.submitted }
  | exchange {s : State T} (h : s.owner = .entered) : Step s .exchange
      { s with owner := if s.stop_ then .returned else .stopping, stop_ := true }
  | notify_all {s : State T} (h : s.owner = .stopping) : Step s .notify_all
      { s with owner := .joining, worker := s.worker.wake }
  | join {s : State T} (h : s.owner = .joining) (hw : s.worker = .returned) : Step s .join
      { s with owner := .returned }

/-- The engine with its threads. -/
def engine (T : Type) : System (State T) (Act T) := ⟨init, Step⟩

@[simp] theorem current_wake (w : Worker T) : w.wake.current = w.current := by cases w <;> rfl

theorem wake_eq_returned {w : Worker T} : w.wake = .returned ↔ w = .returned := by
  cases w <;> simp [Worker.wake]

theorem wake_ne_blocked (w : Worker T) : w.wake ≠ .blocked := by cases w <;> simp [Worker.wake]

theorem wake_eq_waiting {w : Worker T} : w.wake = .waiting ↔ w = .waiting := by
  cases w <;> simp [Worker.wake]

/-! ## Every task once, in order -/

/-- What holds in every state. -/
structure Inv (s : State T) : Prop where
  /-- No task is lost, duplicated or overtaken. -/
  tasks : s.executed ++ s.worker.current ++ s.q_ = s.submitted
  stop_called : s.stop_ = true → s.called ≠ none
  entered_called : s.owner = .entered → s.called ≠ none
  called_submitted : ∀ b, s.called = some b → b <+: s.submitted
  /-- The worker has left when everything was done. -/
  worker_done : s.worker = .returned → ∃ b, s.called = some b ∧ b <+: s.executed
  /-- Someone is shutting down, or it is done. -/
  stopped : s.stop_ = true → s.owner = .stopping ∨ s.owner = .joining ∨ s.worker = .returned
  owner_done : s.owner = .returned → s.worker = .returned

theorem Inv.init {s : State T} (h : init s) : Inv s := by
  subst h
  exact ⟨rfl, by simp, by simp, by simp, by simp, by simp, by simp⟩

/-- A step that does not touch the tasks, `stop_` or the owner. -/
theorem Inv.worker {s : State T} (h : Inv s) {w : Worker T} (hcur : w.current = s.worker.current)
    (hret : w = .returned ↔ s.worker = .returned) : Inv { s with worker := w } where
  tasks := by simpa [hcur] using h.tasks
  stop_called := h.stop_called
  entered_called := h.entered_called
  called_submitted := h.called_submitted
  worker_done := fun hw => h.worker_done (hret.mp hw)
  stopped := fun hs => by simpa [hret] using h.stopped hs
  owner_done := fun ho => hret.mpr (h.owner_done ho)

theorem Inv.step {s s' : State T} {a : Act T} (h : Inv s) (hs : Step s a s') : Inv s' := by
  cases hs with
  | submit task hfree =>
    refine ⟨?_, h.stop_called, h.entered_called, fun b hb => ?_, h.worker_done, h.stopped, h.owner_done⟩
    · rw [← h.tasks]
      simp
    · exact (h.called_submitted b hb).trans (List.prefix_append _ _)
  | notify_one hn =>
    have hw := h.worker (current_wake s.worker) wake_eq_returned
    exact { hw with }
  | test hw =>
    refine h.worker ?_ ?_
    · rw [hw]
      split <;> rfl
    · rw [hw]
      split <;> simp
  | lock hw | wait hw | spurious hw | relock hw =>
    exact h.worker (by simp [hw, Worker.current]) (by simp [hw])
  | @take task q hw hq =>
    refine ⟨?_, h.stop_called, h.entered_called, h.called_submitted, by simp, fun hs => ?_, fun ho => ?_⟩
    · rw [← h.tasks]
      simp [hw, hq, Worker.current]
    · simpa [hw] using h.stopped hs
    · exact absurd (h.owner_done ho) (by simp [hw])
  | leave hw hq =>
    by_cases hstop : s.stop_ = true
    · -- The queue is empty: everything that was submitted has been run.
      have htasks : s.executed = s.submitted := by simpa [hw, hq, Worker.current] using h.tasks
      rw [if_pos hstop]
      refine ⟨by simpa [hq, Worker.current] using htasks, h.stop_called, h.entered_called,
        h.called_submitted, fun _ => ?_, fun _ => .inr (.inr rfl), fun _ => rfl⟩
      obtain ⟨b, hb⟩ := Option.ne_none_iff_exists'.mp (h.stop_called hstop)
      exact ⟨b, hb, htasks ▸ h.called_submitted b hb⟩
    · rw [if_neg hstop]
      exact h.worker (by simp [hw, Worker.current]) (by simp [hw])
  | @finish task threw hw =>
    refine ⟨?_, h.stop_called, h.entered_called, h.called_submitted, by simp, fun hs => ?_, fun ho => ?_⟩
    · rw [← h.tasks]
      simp [hw, Worker.current]
    · simpa [hw] using h.stopped hs
    · exact absurd (h.owner_done ho) (by simp [hw])
  | shutdown ho =>
    have hcalled : (s.called <|> some s.submitted) ≠ none := by cases s.called <;> simp
    refine ⟨h.tasks, fun _ => hcalled, fun _ => hcalled, fun b hb => ?_, fun hw => ?_, fun hs => ?_,
      by simp⟩
    · cases hc : s.called with
      | none =>
        obtain rfl : s.submitted = b := by simpa [hc] using hb
        exact List.prefix_rfl
      | some b' => exact h.called_submitted b (by simpa [hc] using hb)
    · obtain ⟨b, hb, hpre⟩ := h.worker_done hw
      exact ⟨b, by simp [hb], hpre⟩
    · -- Only an owner that has returned calls `shutdown` again.
      refine .inr (.inr ?_)
      rcases ho with ho | ho
      · simpa [ho] using h.stopped hs
      · exact h.owner_done ho
  | exchange ho =>
    by_cases hstop : s.stop_ = true
    · have hret : s.worker = .returned := by simpa [ho] using h.stopped hstop
      rw [if_pos hstop]
      exact ⟨h.tasks, fun _ => h.stop_called hstop, by simp, h.called_submitted, h.worker_done,
        fun _ => .inr (.inr hret), fun _ => hret⟩
    · rw [if_neg hstop]
      exact ⟨h.tasks, fun _ => h.entered_called ho, by simp, h.called_submitted, h.worker_done,
        fun _ => .inl rfl, by simp⟩
  | notify_all ho =>
    have hw := h.worker (current_wake s.worker) wake_eq_returned
    exact ⟨hw.tasks, hw.stop_called, by simp, hw.called_submitted, hw.worker_done,
      fun _ => .inr (.inl rfl), by simp⟩
  | join ho hw =>
    exact ⟨h.tasks, h.stop_called, by simp, h.called_submitted, h.worker_done,
      fun _ => .inr (.inr hw), fun _ => hw⟩

theorem Inv.reachable {s : State T} (h : (engine T).Reachable s) : Inv s :=
  h.invariant (fun _ => .init) fun _ _ _ hinv _ hs => hinv.step hs

/-- **Exactly once, in order.** When `shutdown` has returned, the worker has run
    everything that was submitted before the call, in the order of submission,
    and after it a part of what was submitted later. If nothing was, it has run
    precisely the tasks that were submitted before. -/
theorem shutdown_runs_all {s : State T} (h : (engine T).Reachable s) (hret : s.owner = .returned) :
    ∃ before, s.called = some before ∧ before <+: s.executed ∧ s.executed <+: s.submitted ∧
      (s.submitted = before → s.executed = before) := by
  have hinv := Inv.reachable h
  obtain ⟨before, hcalled, hpre⟩ := hinv.worker_done (hinv.owner_done hret)
  have hexec : s.executed <+: s.submitted := by
    rw [← hinv.tasks, List.append_assoc]
    exact List.prefix_append _ _
  refine ⟨before, hcalled, hpre, hexec, fun heq => ?_⟩
  subst heq
  exact hexec.eq_of_length_le hpre.length_le

/-- Two tasks, the first of which throws; `shutdown` is called while it runs. -/
theorem shutdown_runs_throwing : ∃ s : State Nat, (engine Nat).Reachable s ∧
    s.owner = .returned ∧ s.executed = [7, 8] := by
  have hrun := System.Reachable.steps (M := engine Nat) (.init rfl)
    (.cons (.submit 7 id) <| .cons (.lock rfl) <| .cons (.test rfl) <| .cons (.take rfl rfl) <|
      .cons (.submit 8 id) <| .cons (.shutdown (.inl rfl)) <| .cons (.exchange rfl) <|
      .cons (.finish true rfl) <| .cons (.lock rfl) <| .cons (.test rfl) <| .cons (.take rfl rfl) <|
      .cons (.notify_all rfl) <| .cons (.finish false rfl) <| .cons (.lock rfl) <|
      .cons (.test rfl) <| .cons (.leave rfl rfl) <| .cons (.join rfl rfl) <| .nil _)
  obtain ⟨before, hbefore, -, -, hall⟩ := shutdown_runs_all hrun rfl
  obtain rfl : [7, 8] = before := Option.some.inj hbefore
  exact ⟨_, hrun, rfl, hall rfl⟩

/-! ## Waking the worker -/

/-- `shutdown` waits for a worker that sleeps, and nobody is going to wake it. -/
def Hangs (s : State T) : Prop := s.owner = .joining ∧ s.stop_ = true ∧ s.worker = .blocked

/-- `notify_all` does not come between the worker's test and its wait. -/
def InTime (s : State T) (a : Act T) : Prop :=
  match a with
  | .notify_all => s.worker ≠ .waiting
  | _ => True

/-- Once `shutdown` has notified, the worker does not wait any more. -/
structure Awake (s : State T) : Prop where
  stopping : s.owner = .stopping → s.stop_ = true
  joining : s.owner = .joining → s.stop_ = true ∧ s.worker ≠ .waiting ∧ s.worker ≠ .blocked

theorem Awake.step {s s' : State T} {a : Act T} (h : Awake s) (hok : InTime s a) (hs : Step s a s') :
    Awake s' := by
  cases hs with
  | submit task hfree => exact ⟨h.stopping, h.joining⟩
  | notify_one hn =>
    refine ⟨h.stopping, fun ho => ?_⟩
    obtain ⟨hstop, hwaiting, -⟩ := h.joining ho
    exact ⟨hstop, fun hw => hwaiting (wake_eq_waiting.mp hw), wake_ne_blocked _⟩
  | test hw =>
    refine ⟨h.stopping, fun ho => ?_⟩
    -- With `stop_` set the predicate is true.
    have hstop := (h.joining ho).1
    simp [hstop]
  | wait hw => exact ⟨h.stopping, fun ho => absurd hw (h.joining ho).2.1⟩
  | lock hw | spurious hw | relock hw | take hw hq | finish threw hw =>
    exact ⟨h.stopping, fun ho => ⟨(h.joining ho).1, by simp, by simp⟩⟩
  | leave hw hq =>
    refine ⟨h.stopping, fun ho => ⟨(h.joining ho).1, ?_, ?_⟩⟩ <;> dsimp only <;> split <;> simp
  | shutdown ho => exact ⟨by simp, by simp⟩
  | exchange ho =>
    refine ⟨fun _ => rfl, ?_⟩
    dsimp only
    split <;> simp
  | notify_all ho =>
    exact ⟨by simp, fun _ => ⟨h.stopping ho, fun hw => hok (wake_eq_waiting.mp hw),
      wake_ne_blocked _⟩⟩
  | join ho hw => exact ⟨by simp, by simp⟩

/-- If `notify_all` is always in time, `shutdown` does not wait for a sleeping
    worker. -/
theorem no_lost_wakeup {s : State T} (h : (engine T).Reach InTime s) : ¬ Hangs s := by
  have hawake : Awake s := h.invariant (by
    rintro s rfl
    exact ⟨by simp, by simp⟩) fun _ _ _ hinv hok hs => hinv.step hok hs
  rintro ⟨hjoining, -, hblocked⟩
  exact (hawake.joining hjoining).2.2 hblocked

/-- The worker sleeps when `shutdown` notifies. -/
theorem no_lost_wakeup_asleep : ∃ s : State Nat, (engine Nat).Reach InTime s ∧
    s.owner = .joining ∧ ¬ Hangs s := by
  have hlock : (engine Nat).Reach InTime _ := .step (a := .lock) (.init rfl) trivial (.lock rfl)
  have htest := hlock.next (.test rfl)
  have hwait := htest.next (.wait rfl)
  have hcall := hwait.next (.shutdown (.inl rfl))
  have hstop := hcall.next (.exchange rfl)
  have hrun := hstop.next (.notify_all rfl) (by simp [InTime])
  exact ⟨_, hrun, rfl, no_lost_wakeup hrun⟩

/-- The worker has found nothing to do and is about to wait; `shutdown` sets
    `stop_` and notifies; the worker waits. -/
theorem lost_wakeup : ∃ s : State Nat, (engine Nat).Reachable s ∧ Hangs s := by
  have hrun := System.Reachable.steps (M := engine Nat) (.init rfl)
    (.cons (.lock rfl) <| .cons (.test rfl) <| .cons (.shutdown (.inl rfl)) <|
      .cons (.exchange rfl) <| .cons (.notify_all rfl) <| .cons (.wait rfl) <| .nil _)
  exact ⟨_, hrun, rfl, rfl, rfl⟩

end Mccl.Progress
