import Mathlib.Algebra.BigOperators.Group.List.Basic
import Mccl.Framework.System

/-! # The Runtime's Progress Engine

    Model of `runtime/ProgressEngine.cpp`: a bounded queue of operations, its
    worker thread, any number of calls of `submit`, and the owner that stops
    the engine.

    * **Steps**: a critical section is one step, and so is every atomic access
      and every notification. All accesses to `queue_` and `stop_requested_`
      are under `mu_`, and `wait` gives the mutex up when it falls asleep.
    * **Callbacks**: an operation carries what its three callbacks do. The
      ghost log records which of them were called, in order.
    * **Nothing is lost** (`loses_nothing`): the log is that of the accepted
      operations, in the order in which they entered the queue.
    * **The end** (`Inv.stop_returns`): once `stop` has set its flag, the engine
      runs to the end. Before, it is never stuck (`Inv.goes_on`). -/

namespace Mccl.ProgressEngine

variable {ε : Type}

/-! ## Operations -/

/-- What a callback does. -/
inductive Outcome (ε : Type) where
  | returns
  | throws (ex : ε)
  deriving DecidableEq, Repr

/-- The arguments of `submit`. The last two may be empty. -/
structure Callbacks (ε : Type) where
  execute : Outcome ε
  on_complete : Option (Outcome ε)
  on_error : Option (Outcome ε)
  deriving DecidableEq, Repr

structure EngineOp (ε : Type) extends Callbacks ε where
  seq_num : UInt32
  /-- The call of `submit` that made it (ghost). -/
  call : Nat
  deriving DecidableEq, Repr

/-- A callback is called. -/
inductive Event (ε : Type) where
  | execute (op : EngineOp ε)
  | on_complete (op : EngineOp ε)
  | on_error (op : EngineOp ε) (ex : ε)
  deriving DecidableEq, Repr

namespace EngineOp

variable (op : EngineOp ε)

/-- The calls once there is an exception. What `on_error` does is swallowed. -/
def error_events (ex : ε) : List (Event ε) := if op.on_error.isSome then [.on_error op ex] else []

/-- The calls once `execute` has returned. -/
def complete_events : List (Event ε) :=
  match op.on_complete with
  | none => []
  | some .returns => [.on_complete op]
  | some (.throws ex) => .on_complete op :: op.error_events ex

/-- The calls for the operation. -/
def events : List (Event ε) :=
  match op.execute with
  | .returns => .execute op :: op.complete_events
  | .throws ex => .execute op :: op.error_events ex

/-- `execute` or `on_complete` throws `ex`. -/
def Throws (ex : ε) : Prop :=
  op.execute = .throws ex ∨ (op.execute = .returns ∧ op.on_complete = some (.throws ex))

end EngineOp

theorem mem_error_events {op op' : EngineOp ε} {ex ex' : ε} :
    .on_error op' ex' ∈ op.error_events ex ↔ op' = op ∧ ex' = ex ∧ op.on_error.isSome = true := by
  unfold EngineOp.error_events
  split
  case isTrue h => simp [h]
  case isFalse h => simp [h]

/-- `on_error`, if it is set, is called exactly for what is thrown. -/
theorem on_error_mem_events {op op' : EngineOp ε} {ex : ε} :
    .on_error op' ex ∈ op.events ↔ op' = op ∧ op.on_error.isSome = true ∧ op.Throws ex := by
  unfold EngineOp.events EngineOp.Throws
  cases hexec : op.execute with
  | throws ex' =>
    rw [List.mem_cons, mem_error_events]
    constructor
    · intro h
      obtain h | ⟨hop, hex, herr⟩ := h
      · cases h
      · exact ⟨hop, herr, .inl (by rw [hex])⟩
    · intro h
      obtain ⟨hop, herr, hthrow⟩ := h
      obtain hthrow | ⟨hret, -⟩ := hthrow
      · cases hthrow
        exact .inr ⟨hop, rfl, herr⟩
      · cases hret
  | returns =>
    unfold EngineOp.complete_events
    cases hcomp : op.on_complete with
    | none => simp
    | some out =>
      cases out with
      | returns => simp
      | throws ex' =>
        simp only [List.mem_cons, mem_error_events, reduceCtorEq, false_or, Option.some.injEq,
          Outcome.throws.injEq, true_and]
        constructor
        · intro h
          exact ⟨h.1, h.2.2, h.2.1.symm⟩
        · intro h
          exact ⟨h.1, h.2.2.symm, h.2.1⟩

/-- The operation, if its `execute` is called. -/
def Event.executed : Event ε → Option (EngineOp ε)
  | execute op => some op
  | _ => none

theorem executed_error_events (op : EngineOp ε) (ex : ε) :
    (op.error_events ex).filterMap Event.executed = [] := by
  unfold EngineOp.error_events
  split <;> rfl

/-- `execute` is called once for an operation. -/
theorem executed_events (op : EngineOp ε) : op.events.filterMap Event.executed = [op] := by
  unfold EngineOp.events EngineOp.complete_events
  cases op.execute with
  | throws ex =>
    show op :: (op.error_events ex).filterMap Event.executed = [op]
    rw [executed_error_events]
  | returns =>
    cases op.on_complete with
    | none => rfl
    | some out =>
      cases out with
      | returns => rfl
      | throws ex =>
        show op :: (op.error_events ex).filterMap Event.executed = [op]
        rw [executed_error_events]

theorem executed_flatMap (ops : List (EngineOp ε)) :
    (ops.flatMap EngineOp.events).filterMap Event.executed = ops := by
  induction ops with
  | nil => rfl
  | cons op ops ih => rw [List.flatMap_cons, List.filterMap_append, executed_events, ih]; rfl

/-! ## State -/

/-- Where the worker is in `worker_loop`. -/
inductive Worker (ε : Type) where
  /-- It is about to take the mutex. -/
  | locking
  /-- It sleeps in `not_empty_.wait`. -/
  | blocked
  /-- Before `not_full_.notify_one()`. -/
  | popped (op : EngineOp ε)
  /-- Before `op.execute()`. -/
  | executing (op : EngineOp ε)
  /-- `execute` has returned. -/
  | completing (op : EngineOp ε)
  /-- There is an exception for `on_error`. -/
  | failing (op : EngineOp ε) (ex : ε)
  | returned

namespace Worker

/-- A notification of `not_empty_`. -/
def wake : Worker ε → Worker ε
  | blocked => locking
  | w => w

/-- The operation that has left the queue and is not finished. -/
def current : Worker ε → List (EngineOp ε)
  | popped op | executing op | completing op | failing op _ => [op]
  | _ => []

/-- The calls that are still to be made for it. -/
def pending : Worker ε → List (Event ε)
  | popped op | executing op => op.events
  | completing op => op.complete_events
  | failing op ex => op.error_events ex
  | _ => []

/-- The worker is about to notify a call of `submit`. -/
def notifying : Worker ε → Nat
  | popped _ => 1
  | _ => 0

/-- A bound on the steps until the worker is back at the queue, or has left. -/
def weight : Worker ε → Nat
  | popped _ => 5
  | executing _ => 4
  | completing _ => 3
  | failing _ _ | blocked => 2
  | locking => 1
  | returned => 0

end Worker

/-- Where a call is in `submit`. -/
inductive Submit (ε : Type) where
  | entered (cb : Callbacks ε)
  /-- `running_` was set. -/
  | checked (cb : Callbacks ε)
  /-- It is about to take the mutex. -/
  | locking (op : EngineOp ε)
  /-- It sleeps in `not_full_.wait`. -/
  | blocked (op : EngineOp ε)
  /-- Before `not_empty_.notify_one()`. -/
  | notifying (op : EngineOp ε)
  /-- It has returned `op.seq_num`. -/
  | returned (op : EngineOp ε)
  | threw (msg : String)

namespace Submit

/-- A notification of `not_full_`. -/
def wake : Submit ε → Submit ε
  | blocked op => locking op
  | c => c

/-- The operation, once it has a number. -/
def op : Submit ε → Option (EngineOp ε)
  | locking op | blocked op | notifying op | returned op => some op
  | _ => none

/-- The operation that has entered the queue. -/
def accepted : Submit ε → Option (EngineOp ε)
  | notifying op | returned op => some op
  | _ => none

def isBlocked : Submit ε → Bool
  | blocked _ => true
  | _ => false

def isLocking : Submit ε → Bool
  | locking _ => true
  | _ => false

/-- The call has come to an end. -/
def Ended : Submit ε → Prop
  | returned _ | threw _ => True
  | _ => False

/-- A bound on the steps of the call once the engine is being stopped. -/
def weight : Submit ε → Nat
  | entered _ => 5
  | checked _ => 4
  | blocked _ => 3
  | locking _ => 2
  | notifying _ => 1
  | returned _ | threw _ => 0

end Submit

open Submit (weight isLocking)

/-- Where the owner is in `stop`. -/
inductive Stopper where
  | idle
  | entered
  /-- `running_` was set; it is about to take the mutex. -/
  | locking
  /-- `stop_requested_` is set; before `not_empty_.notify_one()`. -/
  | flagged
  /-- Before `not_full_.notify_all()`. -/
  | notifying
  | joining
  /-- Before `running_ = false`. -/
  | joined
  | returned
  deriving DecidableEq, Repr

def Stopper.weight : Stopper → Nat
  | entered => 6
  | locking => 5
  | flagged => 4
  | notifying => 3
  | joining => 2
  | joined => 1
  | idle | returned => 0

structure State (ε : Type) where
  queue_ : List (EngineOp ε)
  running_ : Bool
  stop_requested_ : Bool
  seq_counter_ : UInt32
  worker : Worker ε
  /-- The calls of `submit` so far. -/
  calls : List (Submit ε)
  stopper : Stopper
  /-- The operations in the order in which they entered the queue (ghost). -/
  accepted : List (EngineOp ε)
  /-- The operations that the worker is done with (ghost). -/
  finished : List (EngineOp ε)
  /-- The callbacks that were called (ghost). -/
  log : List (Event ε)

/-- After `start`. -/
def started : State ε := ⟨[], true, false, 0, .locking, [], .idle, [], [], []⟩

/-! ## Steps -/

/-- The call `i` goes on as `c`. -/
def State.setCall (s : State ε) (i : Nat) (c : Submit ε) : State ε := { s with calls := s.calls.set i c }

/-- The worker is done with `op`, after the calls `es`. -/
def State.finish (s : State ε) (op : EngineOp ε) (es : List (Event ε)) : State ε :=
  { s with worker := .locking, finished := s.finished ++ [op], log := s.log ++ es }

inductive Act (ε : Type) where
  /-- `submit` is called. -/
  | call (cb : Callbacks ε)
  /-- The call `i` of `submit` goes on. -/
  | submit (i : Nat)
  | worker
  /-- `stop` is called. -/
  | stop
  | stopper
  /-- A `wait` returns without a notification. -/
  | spurious

inductive Step (max_depth_ : Nat) : State ε → Act ε → State ε → Prop where
  | call {s : State ε} (cb : Callbacks ε) : Step max_depth_ s (.call cb)
      { s with calls := s.calls ++ [.entered cb] }
  | check {s : State ε} {i : Nat} {cb : Callbacks ε} (h : s.calls[i]? = some (.entered cb)) :
      Step max_depth_ s (.submit i)
        (s.setCall i (if s.running_ then .checked cb else .threw "ProgressEngine is not running"))
  | fetch_add {s : State ε} {i : Nat} {cb : Callbacks ε} (h : s.calls[i]? = some (.checked cb)) :
      Step max_depth_ s (.submit i)
        { s.setCall i (.locking ⟨cb, s.seq_counter_, i⟩) with seq_counter_ := s.seq_counter_ + 1 }
  -- the critical section of `submit`
  | wait {s : State ε} {i : Nat} {op : EngineOp ε} (h : s.calls[i]? = some (.locking op))
      (hpred : ¬(s.queue_.length < max_depth_ ∨ s.stop_requested_ = true)) :
      Step max_depth_ s (.submit i) (s.setCall i (.blocked op))
  | refuse {s : State ε} {i : Nat} {op : EngineOp ε} (h : s.calls[i]? = some (.locking op))
      (hstop : s.stop_requested_ = true) : Step max_depth_ s (.submit i)
        (s.setCall i (.threw "ProgressEngine shutting down, cannot submit"))
  | push {s : State ε} {i : Nat} {op : EngineOp ε} (h : s.calls[i]? = some (.locking op))
      (hpred : s.queue_.length < max_depth_) (hstop : s.stop_requested_ = false) :
      Step max_depth_ s (.submit i)
        { s.setCall i (.notifying op) with
          queue_ := s.queue_ ++ [op]
          accepted := s.accepted ++ [op] }
  | notify_worker {s : State ε} {i : Nat} {op : EngineOp ε} (h : s.calls[i]? = some (.notifying op)) :
      Step max_depth_ s (.submit i) { s.setCall i (.returned op) with worker := s.worker.wake }
  | wake_submit {s : State ε} {i : Nat} {op : EngineOp ε} (h : s.calls[i]? = some (.blocked op)) :
      Step max_depth_ s .spurious (s.setCall i (.locking op))
  -- the critical section of `worker_loop`
  | sleep {s : State ε} (h : s.worker = .locking) (hq : s.queue_ = [])
      (hstop : s.stop_requested_ = false) : Step max_depth_ s .worker { s with worker := .blocked }
  | leave {s : State ε} (h : s.worker = .locking) (hq : s.queue_ = [])
      (hstop : s.stop_requested_ = true) : Step max_depth_ s .worker { s with worker := .returned }
  | pop {s : State ε} {op : EngineOp ε} {q : List (EngineOp ε)} (h : s.worker = .locking)
      (hq : s.queue_ = op :: q) :
      Step max_depth_ s .worker { s with worker := .popped op, queue_ := q }
  | wake_worker {s : State ε} (h : s.worker = .blocked) :
      Step max_depth_ s .spurious { s with worker := .locking }
  | notify_some {s : State ε} {i : Nat} {op op' : EngineOp ε} (h : s.worker = .popped op)
      (hi : s.calls[i]? = some (.blocked op')) :
      Step max_depth_ s .worker { s.setCall i (.locking op') with worker := .executing op }
  | notify_none {s : State ε} {op : EngineOp ε} (h : s.worker = .popped op)
      (hnone : ∀ c ∈ s.calls, c.isBlocked = false) :
      Step max_depth_ s .worker { s with worker := .executing op }
  | execute {s : State ε} {op : EngineOp ε} (h : s.worker = .executing op) (hok : op.execute = .returns) :
      Step max_depth_ s .worker { s with worker := .completing op, log := s.log ++ [.execute op] }
  | execute_throws {s : State ε} {op : EngineOp ε} {ex : ε} (h : s.worker = .executing op)
      (hex : op.execute = .throws ex) :
      Step max_depth_ s .worker { s with worker := .failing op ex, log := s.log ++ [.execute op] }
  | no_complete {s : State ε} {op : EngineOp ε} (h : s.worker = .completing op)
      (hnone : op.on_complete = none) : Step max_depth_ s .worker (s.finish op [])
  | complete {s : State ε} {op : EngineOp ε} (h : s.worker = .completing op)
      (hok : op.on_complete = some .returns) : Step max_depth_ s .worker (s.finish op [.on_complete op])
  | complete_throws {s : State ε} {op : EngineOp ε} {ex : ε} (h : s.worker = .completing op)
      (hex : op.on_complete = some (.throws ex)) :
      Step max_depth_ s .worker { s with worker := .failing op ex, log := s.log ++ [.on_complete op] }
  | fail {s : State ε} {op : EngineOp ε} {ex : ε} (h : s.worker = .failing op ex) :
      Step max_depth_ s .worker
        (s.finish op (if op.on_error.isSome then [.on_error op ex] else []))
  -- `stop`
  | stop {s : State ε} (h : s.stopper = .idle ∨ s.stopper = .returned) :
      Step max_depth_ s .stop { s with stopper := .entered }
  | check_running {s : State ε} (h : s.stopper = .entered) : Step max_depth_ s .stopper
      { s with stopper := if s.running_ then .locking else .returned }
  | request {s : State ε} (h : s.stopper = .locking) : Step max_depth_ s .stopper
      { s with stopper := .flagged, stop_requested_ := true }
  | stop_notify {s : State ε} (h : s.stopper = .flagged) : Step max_depth_ s .stopper
      { s with stopper := .notifying, worker := s.worker.wake }
  | notify_all {s : State ε} (h : s.stopper = .notifying) : Step max_depth_ s .stopper
      { s with stopper := .joining, calls := s.calls.map Submit.wake }
  | join {s : State ε} (h : s.stopper = .joining) (hw : s.worker = .returned) :
      Step max_depth_ s .stopper { s with stopper := .joined }
  | clear {s : State ε} (h : s.stopper = .joined) :
      Step max_depth_ s .stopper { s with stopper := .returned, running_ := false }

/-- The engine with its threads. -/
def engine (ε : Type) (max_depth_ : Nat) : System (State ε) (Act ε) where
  init s := s = started
  step := Step max_depth_

/-! ## Waking -/

@[simp] theorem current_wake (w : Worker ε) : w.wake.current = w.current := by cases w <;> rfl

@[simp] theorem pending_wake (w : Worker ε) : w.wake.pending = w.pending := by cases w <;> rfl

@[simp] theorem notifying_wake (w : Worker ε) : w.wake.notifying = w.notifying := by cases w <;> rfl

theorem wake_eq_returned {w : Worker ε} : w.wake = .returned ↔ w = .returned := by
  cases w <;> simp [Worker.wake]

theorem wake_ne_blocked (w : Worker ε) : w.wake ≠ .blocked := by cases w <;> simp [Worker.wake]

theorem weight_wake_le (w : Worker ε) : w.wake.weight ≤ w.weight := by
  cases w <;> simp [Worker.wake, Worker.weight]

@[simp] theorem op_wake (c : Submit ε) : c.wake.op = c.op := by cases c <;> rfl

@[simp] theorem accepted_wake (c : Submit ε) : c.wake.accepted = c.accepted := by cases c <;> rfl

theorem isBlocked_wake (c : Submit ε) : c.wake.isBlocked = false := by cases c <;> rfl

theorem submit_weight_wake_le (c : Submit ε) : c.wake.weight ≤ c.weight := by
  cases c <;> simp [Submit.wake, weight]

/-! ## Calls of `submit` -/

/-- The operation of the call `i`. -/
def State.opAt (s : State ε) (i : Nat) : Option (EngineOp ε) := s.calls[i]?.bind Submit.op

/-- The operation of the call `i`, if it has entered the queue. -/
def State.acceptedAt (s : State ε) (i : Nat) : Option (EngineOp ε) := s.calls[i]?.bind Submit.accepted

theorem getElem?_setCall {s : State ε} {i : Nat} {c : Submit ε} (h : s.calls[i]? = some c)
    (c' : Submit ε) (j : Nat) :
    (s.setCall i c').calls[j]? = if i = j then some c' else s.calls[j]? := by
  have hi : i < s.calls.length := by
    rw [List.getElem?_eq_some_iff] at h
    exact h.1
  unfold State.setCall
  rw [List.getElem?_set, if_pos hi]

theorem opAt_setCall {s : State ε} {i : Nat} {c : Submit ε} (h : s.calls[i]? = some c)
    (c' : Submit ε) (j : Nat) : (s.setCall i c').opAt j = (if i = j then c'.op else s.opAt j) ∧
      (s.setCall i c').acceptedAt j = if i = j then c'.accepted else s.acceptedAt j := by
  unfold State.opAt State.acceptedAt
  rw [getElem?_setCall h]
  split <;> exact ⟨rfl, rfl⟩

/-- What the calls of `submit` have done. -/
structure CallsOk (s : State ε) : Prop where
  /-- An operation belongs to its call. -/
  own : ∀ i op, s.opAt i = some op → op.call = i
  /-- The accepted operations are those of the calls that pushed. -/
  accepted : ∀ i op, s.acceptedAt i = some op ↔ op ∈ s.accepted ∧ op.call = i
  nodup : (s.accepted.map EngineOp.call).Nodup

section calls

variable {s s' : State ε} {i : Nat} {c c' : Submit ε}

theorem CallsOk.frame (h : CallsOk s) (hop : ∀ i op, s'.opAt i = some op → s.opAt i = some op)
    (hat : ∀ i, s'.acceptedAt i = s.acceptedAt i) (hacc : s'.accepted = s.accepted) :
    CallsOk s' where
  own := fun i op hi => h.own i op (hop i op hi)
  accepted := by
    intro i op
    rw [hat, hacc]
    exact h.accepted i op
  nodup := by
    rw [hacc]
    exact h.nodup

theorem CallsOk.setCall (h : CallsOk s) (hi : s.calls[i]? = some c) (hacc : c'.accepted = c.accepted)
    (hop : ∀ op, c'.op = some op → c.op = some op ∨ op.call = i) : CallsOk (s.setCall i c') := by
  have hci : s.acceptedAt i = c.accepted := by simp [State.acceptedAt, hi]
  have hoi : s.opAt i = c.op := by simp [State.opAt, hi]
  refine ⟨?_, ?_, h.nodup⟩
  · intro j op hj
    rw [(opAt_setCall hi c' j).1] at hj
    split at hj
    · rename_i hij
      subst hij
      obtain hj | hj := hop op hj
      · exact h.own i op (hoi.trans hj)
      · exact hj
    · exact h.own j op hj
  · intro j op
    show (s.setCall i c').acceptedAt j = some op ↔ op ∈ s.accepted ∧ op.call = j
    rw [(opAt_setCall hi c' j).2, ← h.accepted j op]
    split
    · rename_i hij
      subst hij
      rw [hci, hacc]
    · rfl

theorem CallsOk.push {op : EngineOp ε} (h : CallsOk s) (hi : s.calls[i]? = some (.locking op))
    {q : List (EngineOp ε)} :
    CallsOk { s.setCall i (.notifying op) with queue_ := q, accepted := s.accepted ++ [op] } := by
  have hown : op.call = i := h.own i op (by simp [State.opAt, hi, Submit.op])
  have hnew : s.acceptedAt i = none := by simp [State.acceptedAt, hi, Submit.accepted]
  have hfresh : ∀ op' ∈ s.accepted, op'.call ≠ i := by
    intro op' hop' hcall
    have hat := (h.accepted i op').mpr ⟨hop', hcall⟩
    rw [hnew] at hat
    cases hat
  refine ⟨?_, ?_, ?_⟩
  · intro j op' hj
    have hat := (opAt_setCall hi (.notifying op) j).1.symm.trans hj
    split at hat
    · rename_i hij
      cases hat
      exact hown.trans hij
    · exact h.own j op' hat
  · intro j op'
    show (s.setCall i (.notifying op)).acceptedAt j = some op' ↔ op' ∈ s.accepted ++ [op] ∧ op'.call = j
    rw [(opAt_setCall hi _ j).2, List.mem_append, List.mem_singleton]
    by_cases hij : i = j
    · subst hij
      rw [if_pos rfl]
      constructor
      · intro hop'
        cases hop'
        exact ⟨.inr rfl, hown⟩
      · intro hop'
        obtain ⟨hmem | hop', hcall⟩ := hop'
        · exact absurd hcall (hfresh op' hmem)
        · rw [hop']
          rfl
    · rw [if_neg hij, h.accepted j op']
      constructor
      · intro hop'
        exact ⟨.inl hop'.1, hop'.2⟩
      · intro hop'
        obtain ⟨hmem | rfl, hcall⟩ := hop'
        · exact ⟨hmem, hcall⟩
        · exact absurd (hown.symm.trans hcall) hij
  · show ((s.accepted ++ [op]).map EngineOp.call).Nodup
    rw [List.map_append, List.map_singleton, List.nodup_append]
    refine ⟨h.nodup, by simp, ?_⟩
    intro a ha b hb hab
    obtain ⟨op', hop', rfl⟩ := List.mem_map.mp ha
    rw [List.mem_singleton] at hb
    exact hfresh op' hop' (hab.trans (hb.trans hown))

theorem CallsOk.call (h : CallsOk s) (cb : Callbacks ε) :
    CallsOk { s with calls := s.calls ++ [.entered cb] } := by
  have hlookup : ∀ (f : Submit ε → Option (EngineOp ε)), f (.entered cb) = none →
      ∀ i : Nat, (s.calls ++ [.entered cb])[i]?.bind f = s.calls[i]?.bind f := by
    intro f hf i
    by_cases hi : i < s.calls.length
    · rw [List.getElem?_append_left hi]
    · rw [List.getElem?_append_right (by omega), List.getElem?_eq_none (by omega : s.calls.length ≤ i)]
      cases i - s.calls.length with
      | zero => exact hf
      | succ k => rfl
  refine h.frame ?_ (hlookup Submit.accepted rfl) rfl
  intro i op hi
  rw [← hi]
  exact (hlookup Submit.op rfl i).symm

theorem CallsOk.wake_all (h : CallsOk s) (st : Stopper) :
    CallsOk { s with stopper := st, calls := s.calls.map Submit.wake } := by
  have hlookup : ∀ (f : Submit ε → Option (EngineOp ε)), (∀ c, f c.wake = f c) →
      ∀ i : Nat, (s.calls.map Submit.wake)[i]?.bind f = s.calls[i]?.bind f := by
    intro f hf i
    rw [List.getElem?_map]
    cases s.calls[i]? with
    | none => rfl
    | some c => exact hf c
  refine h.frame ?_ (hlookup Submit.accepted accepted_wake) rfl
  intro i op hi
  rw [← hi]
  exact (hlookup Submit.op op_wake i).symm

theorem CallsOk.same (h : CallsOk s) (hcalls : s'.calls = s.calls) (hacc : s'.accepted = s.accepted) :
    CallsOk s' := by
  refine h.frame ?_ ?_ hacc
  · intro i op hi
    rwa [State.opAt, hcalls] at hi
  · intro i
    rw [State.acceptedAt, hcalls]
    rfl

theorem CallsOk.step {max_depth_ : Nat} {a : Act ε} (h : CallsOk s) (hs : Step max_depth_ s a s') :
    CallsOk s' := by
  cases hs
  case call cb => exact h.call cb
  case check i cb hi =>
    apply h.setCall hi
    · split <;> rfl
    · intro op hop
      split at hop <;> cases hop
  case fetch_add i cb hi =>
    have hset : CallsOk (s.setCall i (.locking ⟨cb, s.seq_counter_, i⟩)) := by
      refine h.setCall hi rfl ?_
      intro op hop
      cases hop
      exact .inr rfl
    exact hset.same rfl rfl
  case wait i op hi _ => exact h.setCall hi rfl fun _ hop => .inl hop
  case refuse i op hi _ =>
    refine h.setCall hi rfl ?_
    intro op hop
    cases hop
  case push i op hi _ _ => exact h.push hi
  case notify_worker i op hi =>
    have hset : CallsOk (s.setCall i (.returned op)) := h.setCall hi rfl fun _ hop => .inl hop
    exact hset.same rfl rfl
  case wake_submit i op hi => exact h.setCall hi rfl fun _ hop => .inl hop
  case notify_some i op op' hw hi =>
    have hset : CallsOk (s.setCall i (.locking op')) := h.setCall hi rfl fun _ hop => .inl hop
    exact hset.same rfl rfl
  case notify_all _ => exact h.wake_all _
  all_goals exact h.same rfl rfl

end calls

/-! ## The queue and the log -/

/-- The operations go through the queue and the worker in order. -/
structure QueueOk (max_depth_ : Nat) (s : State ε) : Prop where
  bounded : s.queue_.length ≤ max_depth_
  order : s.finished ++ s.worker.current ++ s.queue_ = s.accepted
  log : s.log ++ s.worker.pending = (s.finished ++ s.worker.current).flatMap EngineOp.events

section queue

variable {max_depth_ : Nat} {s s' : State ε} {a : Act ε}

/-- A step that leaves the operations where they are. -/
theorem QueueOk.frame (h : QueueOk max_depth_ s) (hq : s'.queue_ = s.queue_)
    (hacc : s'.accepted = s.accepted) (hfin : s'.finished = s.finished)
    (hcur : s'.worker.current = s.worker.current)
    (hlog : s'.log ++ s'.worker.pending = s.log ++ s.worker.pending) : QueueOk max_depth_ s' where
  bounded := by
    rw [hq]
    exact h.bounded
  order := by
    rw [hq, hacc, hfin, hcur]
    exact h.order
  log := by
    rw [hlog, hfin, hcur]
    exact h.log

theorem QueueOk.worker (h : QueueOk max_depth_ s) {w : Worker ε} {es : List (Event ε)}
    (hcur : w.current = s.worker.current) (hpending : es ++ w.pending = s.worker.pending) :
    QueueOk max_depth_ { s with worker := w, log := s.log ++ es } := by
  refine h.frame rfl rfl rfl hcur ?_
  show s.log ++ es ++ w.pending = s.log ++ s.worker.pending
  rw [List.append_assoc, hpending]

theorem QueueOk.finish {op : EngineOp ε} {es : List (Event ε)} (h : QueueOk max_depth_ s)
    (hcur : s.worker.current = [op]) (hpending : s.worker.pending = es) :
    QueueOk max_depth_ (s.finish op es) where
  bounded := h.bounded
  order := by
    show s.finished ++ [op] ++ [] ++ s.queue_ = s.accepted
    rw [← h.order, hcur, List.append_nil]
  log := by
    have hlog := h.log
    rw [hcur, hpending] at hlog
    show s.log ++ es ++ [] = (s.finished ++ [op] ++ []).flatMap EngineOp.events
    rw [List.append_nil, List.append_nil, hlog]

theorem QueueOk.step (h : QueueOk max_depth_ s) (hs : Step max_depth_ s a s') :
    QueueOk max_depth_ s' := by
  cases hs
  case push i op hi hpred _ =>
    refine ⟨?_, ?_, h.log⟩
    · show (s.queue_ ++ [op]).length ≤ max_depth_
      rw [List.length_append, List.length_singleton]
      exact hpred
    · show s.finished ++ s.worker.current ++ (s.queue_ ++ [op]) = s.accepted ++ [op]
      rw [← h.order, List.append_assoc _ s.queue_]
  case pop op q hw hq =>
    have horder := h.order
    have hlog := h.log
    have hbound := h.bounded
    rw [hw, hq] at horder
    rw [hw] at hlog
    rw [hq] at hbound
    refine ⟨Nat.le_of_succ_le hbound, ?_, ?_⟩
    · show s.finished ++ [op] ++ q = s.accepted
      rw [← horder]
      simp [Worker.current]
    · show s.log ++ op.events = (s.finished ++ [op]).flatMap EngineOp.events
      simpa [Worker.pending, Worker.current] using hlog
  case notify_worker i op hi =>
    exact h.frame rfl rfl rfl (current_wake _) (by simp [State.setCall])
  case sleep hw _ _ | leave hw _ _ | wake_worker hw | notify_some hw _ | notify_none hw _ =>
    exact h.frame rfl rfl rfl (by rw [hw]; rfl) (by rw [hw]; rfl)
  case execute op hw hok =>
    apply h.worker
    · rw [hw]; rfl
    · rw [hw]
      show _ = op.events
      simp [EngineOp.events, hok, Worker.pending]
  case execute_throws op ex hw hex =>
    apply h.worker
    · rw [hw]; rfl
    · rw [hw]
      show _ = op.events
      simp [EngineOp.events, hex, Worker.pending]
  case no_complete op hw hnone =>
    apply h.finish
    · rw [hw]; rfl
    · rw [hw]
      simp [Worker.pending, EngineOp.complete_events, hnone]
  case complete op hw hok =>
    apply h.finish
    · rw [hw]; rfl
    · rw [hw]
      simp [Worker.pending, EngineOp.complete_events, hok]
  case complete_throws op ex hw hex =>
    apply h.worker
    · rw [hw]; rfl
    · rw [hw]
      simp [Worker.pending, EngineOp.complete_events, hex]
  case fail op ex hw =>
    apply h.finish
    · rw [hw]; rfl
    · rw [hw]; rfl
  case stop_notify _ =>
    exact h.frame rfl rfl rfl (current_wake _) (by simp)
  all_goals exact h.frame rfl rfl rfl rfl rfl

end queue

/-! ## Stopping -/

/-- How `stop` and the other threads are placed. -/
structure StopOk (s : State ε) : Prop where
  /-- The worker leaves an empty queue behind. -/
  left : s.worker = .returned → s.queue_ = [] ∧ s.stop_requested_ = true
  not_running : s.running_ = false → s.worker = .returned
  joined : s.stopper = .joined ∨ s.stopper = .returned → s.worker = .returned
  requested : s.stop_requested_ = true → s.stopper ≠ .idle
  joining : s.stopper = .flagged ∨ s.stopper = .notifying ∨ s.stopper = .joining →
    s.stop_requested_ = true
  /-- Who sleeps when the flag is set is going to be notified. -/
  worker_asleep : s.worker = .blocked → s.stop_requested_ = true → s.stopper = .flagged
  call_asleep : ∀ c ∈ s.calls, c.isBlocked = true → s.stop_requested_ = true →
    s.stopper = .flagged ∨ s.stopper = .notifying

section stop

variable {max_depth_ : Nat} {s s' : State ε} {a : Act ε}

/-- A step of a call, while the others stay where they are. -/
theorem StopOk.calls (h : StopOk s) {cs : List (Submit ε)}
    (hcs : ∀ c ∈ cs, c.isBlocked = true → s.stop_requested_ = true → c ∈ s.calls) :
    StopOk { s with calls := cs } :=
  { h with call_asleep := fun c hc hb hstop => h.call_asleep c (hcs c hc hb hstop) hb hstop }

theorem StopOk.setCall (h : StopOk s) (i : Nat) {c : Submit ε}
    (hc : c.isBlocked = false ∨ s.stop_requested_ = false) : StopOk (s.setCall i c) := by
  apply h.calls
  intro c' hc' hb hstop
  obtain hmem | rfl := List.mem_or_eq_of_mem_set hc'
  · exact hmem
  · obtain hc | hc := hc
    · rw [hc] at hb
      cases hb
    · rw [hc] at hstop
      cases hstop

theorem StopOk.wake (h : StopOk s) : StopOk { s with worker := s.worker.wake } where
  left := fun hw => h.left (wake_eq_returned.mp hw)
  not_running := fun hr => wake_eq_returned.mpr (h.not_running hr)
  joined := fun hj => wake_eq_returned.mpr (h.joined hj)
  requested := h.requested
  joining := h.joining
  worker_asleep := fun hw => absurd hw (wake_ne_blocked _)
  call_asleep := h.call_asleep

/-- A step of the worker, which neither leaves nor falls asleep. -/
theorem StopOk.worker {w : Worker ε} {q fin : List (EngineOp ε)} {log : List (Event ε)} (h : StopOk s)
    (hw : s.worker ≠ .returned) (hw' : w ≠ .returned) (hb : w ≠ .blocked) :
    StopOk { s with worker := w, queue_ := q, finished := fin, log := log } where
  left := fun hleft => absurd hleft hw'
  not_running := fun hr => absurd (h.not_running hr) hw
  joined := fun hj => absurd (h.joined hj) hw
  requested := h.requested
  joining := h.joining
  worker_asleep := fun hasleep => absurd hasleep hb
  call_asleep := h.call_asleep

/-- A step of `stop` before it sets the flag or after it has notified: nobody sleeps with the
    flag set. -/
theorem StopOk.stopper (h : StopOk s) {st : Stopper} {run : Bool}
    (hst : s.stopper ≠ .flagged ∧ s.stopper ≠ .notifying) (hrun : run = false → s.worker = .returned)
    (hjoined : st = .joined ∨ st = .returned → s.worker = .returned) (hidle : st ≠ .idle)
    (hflag : ¬(st = .flagged ∨ st = .notifying ∨ st = .joining)) :
    StopOk { s with stopper := st, running_ := run } where
  left := h.left
  not_running := hrun
  joined := hjoined
  requested := fun _ => hidle
  joining := fun hj => absurd hj hflag
  worker_asleep := fun hw hstop => absurd (h.worker_asleep hw hstop) hst.1
  call_asleep := fun c hc hb hstop => absurd (h.call_asleep c hc hb hstop) (by simp [hst])

theorem StopOk.step (h : StopOk s) (hs : Step max_depth_ s a s') : StopOk s' := by
  cases hs
  case call cb =>
    apply h.calls
    intro c hc hb _
    obtain hc | hc := List.mem_append.mp hc
    · exact hc
    · rw [List.mem_singleton] at hc
      rw [hc] at hb
      cases hb
  case check i cb hi =>
    apply h.setCall
    left
    split <;> rfl
  case fetch_add i cb hi =>
    have hset := h.setCall i (c := .locking ⟨cb, s.seq_counter_, i⟩) (.inl rfl)
    exact { hset with }
  case wait i op hi hpred =>
    apply h.setCall
    right
    rw [← Bool.not_eq_true]
    exact fun hstop => hpred (.inr hstop)
  case refuse i op hi _ => exact h.setCall i (.inl rfl)
  case push i op hi _ hstop =>
    have hset := h.setCall i (c := .notifying op) (.inl rfl)
    refine { hset with left := ?_ }
    -- the worker has not left, since nothing is pushed any more when it has
    intro hw
    have hreq := (h.left hw).2
    rw [hstop] at hreq
    cases hreq
  case notify_worker i op hi =>
    exact (h.setCall i (.inl rfl)).wake
  case wake_submit i op hi => exact h.setCall i (.inl rfl)
  case sleep hw hq hstop =>
    have hne : s.worker ≠ .returned := by rw [hw]; simp
    refine ⟨by simp, fun hr => absurd (h.not_running hr) hne, fun hj => absurd (h.joined hj) hne,
      h.requested, h.joining, ?_, h.call_asleep⟩
    intro _ hstop'
    rw [hstop] at hstop'
    cases hstop'
  case leave hw hq hstop =>
    exact
      { h with
        left := fun _ => ⟨hq, hstop⟩
        not_running := fun _ => rfl
        joined := fun _ => rfl
        worker_asleep := by simp }
  case notify_some i op op' hw hi =>
    have hset : StopOk (s.setCall i (.locking op')) := h.setCall i (.inl rfl)
    exact hset.worker (by simp [State.setCall, hw]) (by simp) (by simp)
  case stop hidle =>
    refine h.stopper ?_ h.not_running (by simp) (by simp) (by simp)
    obtain hst | hst := hidle <;> simp [hst]
  case check_running hst =>
    cases hr : s.running_ with
    | false =>
      have hw := h.not_running hr
      exact h.stopper (by simp [hst]) (fun _ => hw) (fun _ => hw) (by simp) (by simp)
    | true => exact h.stopper (by simp [hst]) (by simp) (by simp) (by simp) (by simp)
  case request hst =>
    refine ⟨?_, h.not_running, by simp, by simp, by simp, fun _ _ => rfl, fun _ _ _ _ => .inl rfl⟩
    exact fun hw => ⟨(h.left hw).1, rfl⟩
  case stop_notify hst =>
    have hw := h.wake
    refine ⟨hw.left, hw.not_running, by simp, by simp, ?_, ?_, fun _ _ _ _ => .inr rfl⟩
    · exact fun _ => h.joining (.inl hst)
    · exact fun hasleep => absurd hasleep (wake_ne_blocked _)
  case notify_all hst =>
    refine ⟨h.left, h.not_running, by simp, by simp, ?_, ?_, ?_⟩
    · exact fun _ => h.joining (.inr (.inl hst))
    · exact fun hw hstop => absurd (h.worker_asleep hw hstop) (by simp [hst])
    · intro c hc hb
      obtain ⟨c', _, rfl⟩ := List.mem_map.mp hc
      rw [isBlocked_wake] at hb
      cases hb
  case join hst hw => exact h.stopper (by simp [hst]) h.not_running (fun _ => hw) (by simp) (by simp)
  case clear hst =>
    have hw := h.joined (.inl hst)
    exact h.stopper (by simp [hst]) (fun _ => hw) (fun _ => hw) (by simp) (by simp)
  -- the other steps of the worker
  case wake_worker hw | pop hw _ | notify_none hw _ | execute hw _ | execute_throws hw _
    | no_complete hw _ | complete hw _ | complete_throws hw _ | fail hw =>
    exact h.worker (by simp [hw]) (by simp) (by simp)

end stop

/-! ## Notifications -/

/-- No notification is missing. -/
structure WakeOk (max_depth_ : Nat) (s : State ε) : Prop where
  /-- A worker that sleeps although there is work is going to be notified. -/
  work : s.worker = .blocked → s.queue_ = [] ∨ ∃ op, .notifying op ∈ s.calls
  /-- While a call sleeps, the free places are left to calls that are awake or going to be. -/
  room : (∃ c ∈ s.calls, c.isBlocked = true) → s.stop_requested_ = false →
    max_depth_ ≤ s.queue_.length + s.calls.countP Submit.isLocking + s.worker.notifying

section wake

variable {max_depth_ : Nat} {s s' : State ε} {a : Act ε} {i : Nat} {c c' : Submit ε}

theorem countP_setCall (h : s.calls[i]? = some c) (c' : Submit ε) (p : Submit ε → Bool) :
    (s.setCall i c').calls.countP p + (if p c then 1 else 0) =
      s.calls.countP p + if p c' then 1 else 0 := by
  obtain ⟨hi, rfl⟩ := List.getElem?_eq_some_iff.mp h
  have hpos : p s.calls[i] = true → 0 < s.calls.countP p := fun hp =>
    List.countP_pos_iff.mpr ⟨_, List.getElem_mem hi, hp⟩
  unfold State.setCall
  rw [List.countP_set hi]
  split
  · have := hpos ‹_›
    omega
  · omega

theorem mem_setCall (h : s.calls[i]? = some c) {x : Submit ε} (hx : x ∈ s.calls) (hne : x ≠ c) :
    x ∈ (s.setCall i c').calls := by
  obtain ⟨j, hj⟩ := List.mem_iff_getElem?.mp hx
  have hij : i ≠ j := by
    intro hij
    rw [hij, hj] at h
    exact hne (Option.some.inj h)
  apply List.mem_iff_getElem?.mpr
  refine ⟨j, ?_⟩
  rw [getElem?_setCall h, if_neg hij, hj]

theorem asleep_of_setCall (hb : c'.isBlocked = false) (h : ∃ x ∈ (s.setCall i c').calls, x.isBlocked = true) :
    ∃ x ∈ s.calls, x.isBlocked = true := by
  obtain ⟨x, hx, hxb⟩ := h
  obtain hx | rfl := List.mem_or_eq_of_mem_set hx
  · exact ⟨x, hx, hxb⟩
  · rw [hb] at hxb
    cases hxb

/-- Unless it is that call that notifies the worker, the worker will be notified as
    before. -/
theorem WakeOk.work_setCall (h : WakeOk max_depth_ s) (hi : s.calls[i]? = some c) (hc : ∀ op, c ≠ .notifying op)
    (hw : s.worker = .blocked) : s.queue_ = [] ∨ ∃ op, .notifying op ∈ (s.setCall i c').calls := by
  obtain hq | ⟨op, hop⟩ := h.work hw
  · exact .inl hq
  · exact .inr ⟨op, mem_setCall hi hop (hc op).symm⟩

theorem WakeOk.setCall (h : WakeOk max_depth_ s) (hi : s.calls[i]? = some c)
    (hc : ∀ op, c ≠ .notifying op) (hlock : c.isLocking = true → c'.isLocking = true)
    (hb : c'.isBlocked = false) : WakeOk max_depth_ (s.setCall i c') where
  work := h.work_setCall hi hc
  room := by
    intro hsleep hstop
    have hroom := h.room (asleep_of_setCall hb hsleep) hstop
    have hcount := countP_setCall hi c' isLocking
    show max_depth_ ≤ s.queue_.length + (s.setCall i c').calls.countP isLocking +
      s.worker.notifying
    cases hl : c.isLocking with
    | false =>
      rw [hl] at hcount
      simp only [Bool.false_eq_true, if_false] at hcount
      omega
    | true =>
      rw [hl, hlock hl] at hcount
      omega

theorem WakeOk.worker {w : Worker ε} {fin : List (EngineOp ε)} {log : List (Event ε)}
    (h : WakeOk max_depth_ s) (hb : w ≠ .blocked) (hn : s.worker.notifying ≤ w.notifying) :
    WakeOk max_depth_ { s with worker := w, finished := fin, log := log } where
  work := fun hw => absurd hw hb
  room := by
    intro hsleep hstop
    have hroom := h.room hsleep hstop
    show max_depth_ ≤ s.queue_.length + s.calls.countP isLocking + w.notifying
    omega

theorem WakeOk.stopper (h : WakeOk max_depth_ s) (st : Stopper) (run : Bool) :
    WakeOk max_depth_ { s with stopper := st, running_ := run } := ⟨h.work, h.room⟩

theorem WakeOk.step (h : WakeOk max_depth_ s) (hs : Step max_depth_ s a s') : WakeOk max_depth_ s' := by
  cases hs
  case call cb =>
    constructor
    · intro hw
      obtain hq | ⟨op, hop⟩ := h.work hw
      · exact .inl hq
      · exact .inr ⟨op, List.mem_append_left _ hop⟩
    · intro hsleep hstop
      obtain ⟨x, hx, hxb⟩ := hsleep
      have hold : x ∈ s.calls := by
        obtain hx | hx := List.mem_append.mp hx
        · exact hx
        · rw [List.mem_singleton] at hx
          rw [hx] at hxb
          cases hxb
      have hroom := h.room ⟨x, hold, hxb⟩ hstop
      show max_depth_ ≤ s.queue_.length + (s.calls ++ [Submit.entered cb]).countP isLocking +
        s.worker.notifying
      rw [List.countP_append]
      omega
  case check i cb hi =>
    apply h.setCall hi
    · simp
    · intro hl
      cases hl
    · split <;> rfl
  case fetch_add i cb hi =>
    have hset : WakeOk max_depth_ (s.setCall i (.locking ⟨cb, s.seq_counter_, i⟩)) :=
      h.setCall hi (by simp) (fun _ => rfl) rfl
    exact ⟨hset.work, hset.room⟩
  case wait i op hi hpred =>
    refine ⟨h.work_setCall hi (by simp), ?_⟩
    -- the queue is full
    intro _ _
    show max_depth_ ≤ s.queue_.length + _ + s.worker.notifying
    omega
  case refuse i op hi hstop =>
    refine ⟨h.work_setCall hi (by simp), ?_⟩
    intro _ hstop'
    have hnot : s.stop_requested_ = false := hstop'
    rw [hstop] at hnot
    cases hnot
  case push i op hi hpred _ =>
    constructor
    · intro _
      right
      refine ⟨op, List.mem_iff_getElem?.mpr ⟨i, ?_⟩⟩
      show (s.setCall i (.notifying op)).calls[i]? = some (.notifying op)
      rw [getElem?_setCall hi, if_pos rfl]
    · intro hsleep hstop
      have hroom := h.room (asleep_of_setCall rfl hsleep) hstop
      -- one place is taken, by a call that was awake
      have hcount := countP_setCall hi (.notifying op) isLocking
      simp only [isLocking, if_true, Bool.false_eq_true, if_false] at hcount
      show max_depth_ ≤ (s.queue_ ++ [op]).length +
        (s.setCall i (.notifying op)).calls.countP isLocking + s.worker.notifying
      rw [List.length_append, List.length_singleton]
      omega
  case notify_worker i op hi =>
    constructor
    · exact fun hw => absurd hw (wake_ne_blocked _)
    · intro hsleep hstop
      have hroom := h.room (asleep_of_setCall rfl hsleep) hstop
      have hcount := countP_setCall hi (.returned op) isLocking
      simp only [isLocking, Bool.false_eq_true, if_false] at hcount
      show max_depth_ ≤ s.queue_.length +
        (s.setCall i (.returned op)).calls.countP isLocking + s.worker.wake.notifying
      rw [notifying_wake]
      omega
  case wake_submit i op hi => exact h.setCall hi (by simp) (fun _ => rfl) rfl
  case sleep hw hq _ =>
    refine ⟨fun _ => .inl hq, ?_⟩
    intro hsleep hstop
    have hroom := h.room hsleep hstop
    rw [hw] at hroom
    exact hroom
  case leave hw hq hstop =>
    refine ⟨by simp, ?_⟩
    intro _ hstop'
    have hnot : s.stop_requested_ = false := hstop'
    rw [hstop] at hnot
    cases hnot
  case pop op q hw hq =>
    refine ⟨by simp, ?_⟩
    intro hsleep hstop
    have hroom := h.room hsleep hstop
    rw [hw, hq, List.length_cons] at hroom
    show max_depth_ ≤ q.length + s.calls.countP isLocking + 1
    simp only [Worker.notifying] at hroom
    omega
  case wake_worker hw => exact h.worker (by simp) (by rw [hw]; exact Nat.le_refl _)
  case notify_some i op op' hw hi =>
    refine ⟨by simp, ?_⟩
    intro _ hstop
    -- the call that is woken takes over
    have hroom := h.room ⟨_, List.mem_iff_getElem?.mpr ⟨i, hi⟩, rfl⟩ hstop
    have hcount := countP_setCall hi (.locking op') isLocking
    rw [hw] at hroom
    simp only [isLocking, Worker.notifying, Bool.false_eq_true, if_false, if_true] at hcount hroom
    show max_depth_ ≤ s.queue_.length +
      (s.setCall i (.locking op')).calls.countP isLocking + 0
    omega
  case notify_none op hw hnone =>
    refine ⟨by simp, ?_⟩
    intro hsleep _
    obtain ⟨x, hx, hxb⟩ := hsleep
    rw [hnone x hx] at hxb
    cases hxb
  case execute hw _ | execute_throws hw _ | no_complete hw _ | complete hw _
    | complete_throws hw _ | fail hw => exact h.worker (by simp) (by rw [hw]; exact Nat.le_refl _)
  case stop | check_running | join | clear => exact h.stopper _ _
  case request _ => exact ⟨h.work, by simp⟩
  case stop_notify _ =>
    have hw : WakeOk max_depth_ { s with worker := s.worker.wake } :=
      h.worker (wake_ne_blocked _) (Nat.le_of_eq (notifying_wake s.worker).symm)
    exact ⟨hw.work, hw.room⟩
  case notify_all _ =>
    constructor
    · intro hw
      obtain hq | ⟨op, hop⟩ := h.work hw
      · exact .inl hq
      · exact .inr ⟨op, List.mem_map.mpr ⟨_, hop, rfl⟩⟩
    · intro hsleep _
      obtain ⟨x, hx, hxb⟩ := hsleep
      obtain ⟨y, _, rfl⟩ := List.mem_map.mp hx
      rw [isBlocked_wake] at hxb
      cases hxb

end wake

/-! ## Progress -/

/-- The step is one of a thread that is in the engine already. -/
def Act.Going : Act ε → Prop
  | submit _ | worker | stopper => True
  | _ => False

/-- Every call of `submit` and of `stop` has come to an end. -/
def State.Ended (s : State ε) : Prop :=
  (s.stopper = .idle ∨ s.stopper = .returned) ∧ ∀ c ∈ s.calls, c.Ended

section progress

section goes_on

variable (max_depth_ : Nat) {s : State ε}

/-- A call that has not ended and does not sleep can go on. -/
theorem call_goes_on {c : Submit ε} (hc : c ∈ s.calls) (hend : ¬c.Ended) (hb : c.isBlocked = false) :
    ∃ i s', Step max_depth_ s (.submit i) s' := by
  obtain ⟨i, hi⟩ := List.mem_iff_getElem?.mp hc
  refine ⟨i, ?_⟩
  cases c with
  | entered cb => exact ⟨_, .check hi⟩
  | checked cb => exact ⟨_, .fetch_add hi⟩
  | locking op =>
    by_cases hstop : s.stop_requested_ = true
    · exact ⟨_, .refuse hi hstop⟩
    · have hnot : s.stop_requested_ = false := by simpa using hstop
      by_cases hfull : s.queue_.length < max_depth_
      · exact ⟨_, .push hi hfull hnot⟩
      · exact ⟨_, .wait hi (by simp [hfull, hnot])⟩
  | blocked op => cases hb
  | notifying op => exact ⟨_, .notify_worker hi⟩
  | returned op => exact absurd trivial hend
  | threw msg => exact absurd trivial hend

/-- So can a worker that has not left and does not sleep. -/
theorem worker_goes_on (hleft : s.worker ≠ .returned) (hb : s.worker ≠ .blocked) :
    ∃ s', Step max_depth_ s .worker s' := by
  cases hw : s.worker with
  | locking =>
    cases hq : s.queue_ with
    | cons op q => exact ⟨_, .pop hw hq⟩
    | nil =>
      cases hstop : s.stop_requested_ with
      | false => exact ⟨_, .sleep hw hq hstop⟩
      | true => exact ⟨_, .leave hw hq hstop⟩
  | blocked => exact absurd hw hb
  | popped op =>
    by_cases hsleep : ∃ c ∈ s.calls, c.isBlocked = true
    · obtain ⟨c, hc, hcb⟩ := hsleep
      obtain ⟨i, hi⟩ := List.mem_iff_getElem?.mp hc
      cases c with
      | blocked op' => exact ⟨_, .notify_some hw hi⟩
      | entered _ | checked _ | locking _ | notifying _ | returned _ | threw _ => cases hcb
    · refine ⟨_, .notify_none hw ?_⟩
      intro c hc
      rw [← Bool.not_eq_true]
      exact fun hcb => hsleep ⟨c, hc, hcb⟩
  | executing op =>
    cases hex : op.execute with
    | returns => exact ⟨_, .execute hw hex⟩
    | throws ex => exact ⟨_, .execute_throws hw hex⟩
  | completing op =>
    cases hcomp : op.on_complete with
    | none => exact ⟨_, .no_complete hw hcomp⟩
    | some out =>
      cases out with
      | returns => exact ⟨_, .complete hw hcomp⟩
      | throws ex => exact ⟨_, .complete_throws hw hcomp⟩
  | failing op ex => exact ⟨_, .fail hw⟩
  | returned => exact absurd hw hleft

/-- So can `stop`, unless it waits for the worker. -/
theorem stopper_goes_on (hst : s.stopper ≠ .idle) (hst' : s.stopper ≠ .returned)
    (hjoin : s.stopper = .joining → s.worker = .returned) :
    ∃ s', Step max_depth_ s .stopper s' := by
  cases h : s.stopper with
  | idle => exact absurd h hst
  | entered => exact ⟨_, .check_running h⟩
  | locking => exact ⟨_, .request h⟩
  | flagged => exact ⟨_, .stop_notify h⟩
  | notifying => exact ⟨_, .notify_all h⟩
  | joining => exact ⟨_, .join h (hjoin h)⟩
  | joined => exact ⟨_, .clear h⟩
  | returned => exact absurd h hst'

end goes_on

variable {max_depth_ : Nat} {s s' : State ε} {a : Act ε}

/-- What holds in every state of the engine. -/
structure Inv (max_depth_ : Nat) (s : State ε) : Prop where
  calls : CallsOk s
  queue : QueueOk max_depth_ s
  stop : StopOk s
  wake : WakeOk max_depth_ s

theorem Inv.started : Inv max_depth_ (started : State ε) where
  calls := ⟨by simp [State.opAt, ProgressEngine.started], by
    simp [State.acceptedAt, ProgressEngine.started], List.nodup_nil⟩
  queue := ⟨Nat.zero_le _, rfl, rfl⟩
  stop := by constructor <;> simp [ProgressEngine.started]
  wake := by constructor <;> simp [ProgressEngine.started]

theorem Inv.step (h : Inv max_depth_ s) (hs : Step max_depth_ s a s') : Inv max_depth_ s' :=
  ⟨h.calls.step hs, h.queue.step hs, h.stop.step hs, h.wake.step hs⟩

theorem Inv.reachable (h : (engine ε max_depth_).Reachable s) : Inv max_depth_ s := by
  apply h.invariant
  · intro s hs
    rw [show s = ProgressEngine.started from hs]
    exact Inv.started
  · intro s a s' hinv _ hs
    exact hinv.step hs

/-- **Never stuck**: as long as a call has not ended, a thread can go on
    without being woken by chance. -/
theorem Inv.goes_on (h : Inv max_depth_ s) (hdepth : 0 < max_depth_) (hend : ¬s.Ended) :
    ∃ a s', a.Going ∧ Step max_depth_ s a s' := by
  by_contra hstuck
  have hno : ∀ a, a.Going → ¬∃ s', Step max_depth_ s a s' := by
    intro a ha hs
    obtain ⟨s', hs⟩ := hs
    exact hstuck ⟨a, s', ha, hs⟩
  have hcalls : ∀ c ∈ s.calls, c.Ended ∨ c.isBlocked = true := by
    intro c hc
    by_contra hc'
    obtain ⟨hgo, hb⟩ := not_or.mp hc'
    obtain ⟨i, hs⟩ := call_goes_on max_depth_ hc hgo (by simpa using hb)
    exact hno (.submit i) trivial hs
  have hworker : s.worker = .blocked ∨ s.worker = .returned := by
    by_contra hw
    obtain ⟨hb, hleft⟩ := not_or.mp hw
    exact hno .worker trivial (worker_goes_on max_depth_ hleft hb)
  -- if a call sleeps, the queue is full and the worker has something to do
  have hawake : ∀ c ∈ s.calls, c.isBlocked = false := by
    intro c hc
    rw [← Bool.not_eq_true]
    intro hb
    by_cases hstop : s.stop_requested_ = true
    · have hst := h.stop.call_asleep c hc hb hstop
      apply hno .stopper trivial
      obtain hst | hst := hst
      · exact ⟨_, .stop_notify hst⟩
      · exact ⟨_, .notify_all hst⟩
    · have hblocked : s.worker = .blocked := by
        obtain hw | hw := hworker
        · exact hw
        · exact absurd (h.stop.left hw).2 hstop
      have hnolock : s.calls.countP isLocking = 0 := by
        apply List.countP_eq_zero.mpr
        intro c' hc' hl
        cases c' with
        | locking op => simpa [Submit.Ended, Submit.isBlocked] using hcalls _ hc'
        | entered _ | checked _ | blocked _ | notifying _ | returned _ | threw _ => cases hl
      have hroom := h.wake.room ⟨c, hc, hb⟩ (by simpa using hstop)
      rw [hnolock, hblocked] at hroom
      obtain hq | ⟨op, hop⟩ := h.wake.work hblocked
      · rw [hq] at hroom
        simp only [List.length_nil, Worker.notifying] at hroom
        omega
      · simpa [Submit.Ended, Submit.isBlocked] using hcalls _ hop
  have hended : ∀ c ∈ s.calls, c.Ended := by
    intro c hc
    obtain hc' | hc' := hcalls c hc
    · exact hc'
    · rw [hawake c hc] at hc'
      cases hc'
  -- so `stop` waits for a worker that sleeps, which it has notified
  have hst : ¬(s.stopper = .idle ∨ s.stopper = .returned) := fun hst => hend ⟨hst, hended⟩
  obtain ⟨hidle, hret⟩ := not_or.mp hst
  apply hno .stopper trivial
  apply stopper_goes_on max_depth_ hidle hret
  intro hjoin
  obtain hw | hw := hworker
  · have hstop := h.stop.joining (.inr (.inr hjoin))
    exact absurd (h.stop.worker_asleep hw hstop) (by simp [hjoin])
  · exact hw

/-! ## The end -/

/-- A bound on the steps until everything has ended, once the flag is set. -/
def remaining (s : State ε) : Nat :=
  6 * s.queue_.length + s.worker.weight + (s.calls.map Submit.weight).sum + s.stopper.weight

/-- No more calls of `submit` and `stop` are made. -/
def Act.Inner : Act ε → Prop
  | call _ | stop => False
  | _ => True

/-- The engine from `s` on, without further calls. -/
def closing (max_depth_ : Nat) (s : State ε) : System (State ε) (Act ε) where
  init s' := s' = s
  step s a s' := a.Inner ∧ Step max_depth_ s a s'

/-- A call goes on, and nothing else gets further from the end. -/
theorem remaining_setCall {i : Nat} {c c' : Submit ε} {w : Worker ε} {k : UInt32}
    (h : s.calls[i]? = some c) (hlt : c'.weight < c.weight) (hw : w.weight ≤ s.worker.weight) :
    remaining { s.setCall i c' with worker := w, seq_counter_ := k } < remaining s := by
  have hsum := sum_map_set_lt h hlt
  show 6 * s.queue_.length + w.weight + ((s.calls.set i c').map weight).sum + s.stopper.weight <
    6 * s.queue_.length + s.worker.weight + (s.calls.map weight).sum + s.stopper.weight
  omega

theorem remaining_worker {w : Worker ε} {fin : List (EngineOp ε)} {log : List (Event ε)}
    (hlt : w.weight < s.worker.weight) :
    remaining { s with worker := w, finished := fin, log := log } < remaining s := by
  show 6 * s.queue_.length + w.weight + (s.calls.map weight).sum + s.stopper.weight <
    6 * s.queue_.length + s.worker.weight + (s.calls.map weight).sum + s.stopper.weight
  omega

theorem remaining_stopper {w : Worker ε} {cs : List (Submit ε)} {st st' : Stopper} {run req : Bool}
    (hst : s.stopper = st') (hlt : st.weight < st'.weight) (hw : w.weight ≤ s.worker.weight)
    (hcs : (cs.map weight).sum ≤ (s.calls.map weight).sum) :
    remaining { s with worker := w, calls := cs, stopper := st, running_ := run, stop_requested_ := req } <
      remaining s := by
  show 6 * s.queue_.length + w.weight + (cs.map weight).sum + st.weight <
    6 * s.queue_.length + s.worker.weight + (s.calls.map weight).sum + s.stopper.weight
  rw [hst]
  omega

theorem sum_weight_wake_le (cs : List (Submit ε)) :
    ((cs.map Submit.wake).map weight).sum ≤ (cs.map weight).sum := by
  induction cs with
  | nil => exact Nat.le_refl _
  | cons c cs ih =>
    have hc := submit_weight_wake_le c
    simp only [List.map_cons, List.sum_cons]
    omega

/-- With the flag set nothing is pushed and nobody falls asleep, so every step
    brings the end nearer. -/
theorem remaining_lt (hstop : s.stop_requested_ = true) (ha : a.Inner) (hs : Step max_depth_ s a s') :
    remaining s' < remaining s := by
  cases hs with
  | call cb => exact ha.elim
  | check hi =>
    apply remaining_setCall hi _ (Nat.le_refl _)
    split <;> simp [weight]
  | fetch_add hi | refuse hi _ | wake_submit hi =>
    exact remaining_setCall hi (by simp [weight]) (Nat.le_refl _)
  | wait hi hpred => exact absurd (.inr hstop) hpred
  | push _ _ hnot | sleep _ _ hnot =>
    rw [hstop] at hnot
    cases hnot
  | notify_worker hi => exact remaining_setCall hi (by simp [weight]) (weight_wake_le _)
  | @pop op q hw hq =>
    show 6 * q.length + 5 + (s.calls.map weight).sum + s.stopper.weight <
      6 * s.queue_.length + s.worker.weight + (s.calls.map weight).sum + s.stopper.weight
    rw [hw, hq, List.length_cons]
    simp only [Worker.weight]
    omega
  | notify_some hw hi =>
    exact remaining_setCall hi (by simp [weight]) (by simp [hw, Worker.weight])
  | leave hw _ _ | wake_worker hw | notify_none hw _ | execute hw _ | execute_throws hw _
  | no_complete hw _ | complete hw _ | complete_throws hw _ | fail hw =>
    exact remaining_worker (by simp [hw, Worker.weight])
  | stop _ => exact ha.elim
  | check_running hst =>
    apply remaining_stopper hst _ (Nat.le_refl _) (Nat.le_refl _)
    split <;> decide
  | request hst | join hst _ | clear hst =>
    exact remaining_stopper hst (by decide) (Nat.le_refl _) (Nat.le_refl _)
  | stop_notify hst => exact remaining_stopper hst (by decide) (weight_wake_le _) (Nat.le_refl _)
  | notify_all hst => exact remaining_stopper hst (by decide) (Nat.le_refl _) (sum_weight_wake_le _)

theorem Step.stop_requested (hs : Step max_depth_ s a s') (h : s.stop_requested_ = true) :
    s'.stop_requested_ = true := by
  cases hs <;> first | exact h | rfl

/-- With the flag set, nothing enters the queue. -/
theorem Step.accepted (hs : Step max_depth_ s a s') (h : s.stop_requested_ = true) :
    s'.accepted = s.accepted := by
  cases hs
  case push hnot =>
    rw [h] at hnot
    cases hnot
  all_goals rfl

/-- **`stop` returns**: once it has set the flag, every run without further
    calls ends, and every call has come to an end then. -/
theorem Inv.stop_returns (h : Inv max_depth_ s) (hdepth : 0 < max_depth_)
    (hstop : s.stop_requested_ = true) :
    (closing max_depth_ s).Ends (fun s' => s'.stopper = .returned ∧ ∀ c ∈ s'.calls, c.Ended) s := by
  apply System.Ends.of_measure (I := fun s => Inv max_depth_ s ∧ s.stop_requested_ = true) remaining
  · intro s a s' hI hs
    exact ⟨hI.1.step hs.2, hs.2.stop_requested hI.2⟩
  · intro s a s' hI hs
    exact remaining_lt hI.2 hs.1 hs.2
  · intro s hI hno
    have hend : s.Ended := by
      by_contra hend
      obtain ⟨a, s', ha, hs⟩ := hI.1.goes_on hdepth hend
      have hinner : a.Inner := by cases a <;> trivial
      exact hno a s' ⟨hinner, hs⟩
    obtain hidle | hret := hend.1
    · exact absurd hidle (hI.1.stop.requested hI.2)
    · exact ⟨hret, hend.2⟩
  · exact ⟨h, hstop⟩

/-- **Nothing is lost.** In every state of every run, the queue is within its
    bound; the callbacks that were called are those of the accepted
    operations, in the order of their acceptance; once `stop` has returned,
    they are all of them. An operation whose `submit` has returned is
    accepted, once; with the flag set none is accepted any more. A run without
    further calls ends once the flag is set, and no call is stuck before. -/
theorem loses_nothing (hdepth : 0 < max_depth_) (h : (engine ε max_depth_).Reachable s) :
    s.queue_.length ≤ max_depth_ ∧
    (∀ i op, s.calls[i]? = some (.returned op) → op ∈ s.accepted ∧ op.call = i) ∧
    (s.accepted.map EngineOp.call).Nodup ∧
    s.log <+: s.accepted.flatMap EngineOp.events ∧
    (s.stopper = .returned → s.log = s.accepted.flatMap EngineOp.events ∧
      s.log.filterMap Event.executed = s.accepted ∧
      ∀ op ∈ s.accepted, ∀ ex, .on_error op ex ∈ s.log ↔ op.on_error.isSome = true ∧ op.Throws ex) ∧
    (∀ op ex, .on_error op ex ∈ s.log → op ∈ s.accepted ∧ op.Throws ex) ∧
    (∀ a s', (engine ε max_depth_).step s a s' → s.stop_requested_ = true →
      s'.accepted = s.accepted ∧ s'.stop_requested_ = true) ∧
    (¬s.Ended → ∃ a s', a.Going ∧ (engine ε max_depth_).step s a s') ∧
    (s.stop_requested_ = true →
      (closing max_depth_ s).Ends (fun s' => s'.stopper = .returned ∧ ∀ c ∈ s'.calls, c.Ended) s) := by
  have hinv := Inv.reachable h
  have hlog : s.log <+: s.accepted.flatMap EngineOp.events := by
    rw [← hinv.queue.order, List.flatMap_append, ← hinv.queue.log, List.append_assoc]
    exact List.prefix_append _ _
  refine ⟨hinv.queue.bounded, ?_, hinv.calls.nodup, hlog, ?_, ?_, ?_, hinv.goes_on hdepth,
    hinv.stop_returns hdepth⟩
  · intro i op hi
    exact (hinv.calls.accepted i op).mp (by simp [State.acceptedAt, hi, Submit.accepted])
  · intro hret
    -- the worker has left, with nothing in its hands or in the queue
    have hw := hinv.stop.joined (.inr hret)
    have hq := (hinv.stop.left hw).1
    have horder := hinv.queue.order
    have hall := hinv.queue.log
    rw [hw, hq] at horder
    rw [hw] at hall
    simp only [Worker.current, Worker.pending, List.append_nil] at horder hall
    rw [horder] at hall
    refine ⟨hall, ?_, ?_⟩
    · rw [hall, executed_flatMap]
    · intro op hop ex
      rw [hall, List.mem_flatMap]
      constructor
      · intro hmem
        obtain ⟨op', -, hmem⟩ := hmem
        obtain ⟨rfl, herr, hthrow⟩ := on_error_mem_events.mp hmem
        exact ⟨herr, hthrow⟩
      · intro hboth
        exact ⟨op, hop, on_error_mem_events.mpr ⟨rfl, hboth.1, hboth.2⟩⟩
  · intro op ex hmem
    obtain ⟨op', hop', hmem⟩ := List.mem_flatMap.mp (hlog.subset hmem)
    obtain ⟨rfl, -, hthrow⟩ := on_error_mem_events.mp hmem
    exact ⟨hop', hthrow⟩
  · intro a s' hs hstop
    exact ⟨hs.accepted hstop, hs.stop_requested hstop⟩

/-- An operation all of whose callbacks throw. -/
def failingCallbacks : Callbacks Nat := ⟨.throws 7, some (.throws 8), some (.throws 9)⟩

def plainCallbacks : Callbacks Nat := ⟨.returns, some .returns, none⟩

/-- The second call sleeps until the first operation, which fails, has left
    the queue; then the engine is stopped. -/
theorem loses_nothing_failing : ∃ s : State Nat, (engine Nat 1).Reachable s ∧
    s.stopper = .returned ∧ s.accepted = [⟨failingCallbacks, 0, 0⟩, ⟨plainCallbacks, 1, 1⟩] ∧
    s.log.filterMap Event.executed = s.accepted := by
  have hrun := System.Reachable.steps (M := engine Nat 1) (.init rfl)
    (.cons (.call failingCallbacks) <| .cons (.check (i := 0) rfl) <| .cons (.fetch_add (i := 0) rfl) <|
      .cons (.push (i := 0) rfl (by decide) rfl) <| .cons (.call plainCallbacks) <|
      .cons (.check (i := 1) rfl) <| .cons (.fetch_add (i := 1) rfl) <|
      .cons (.wait (i := 1) rfl (by decide)) <| .cons (.pop rfl rfl) <|
      .cons (.notify_some (i := 1) rfl rfl) <| .cons (.notify_worker (i := 0) rfl) <|
      .cons (.push (i := 1) rfl (by decide) rfl) <| .cons (.execute_throws rfl rfl) <|
      .cons (.fail rfl) <| .cons (.notify_worker (i := 1) rfl) <| .cons (.stop (.inl rfl)) <|
      .cons (.check_running rfl) <| .cons (.request rfl) <| .cons (.pop rfl rfl) <|
      .cons (.notify_none rfl (by decide)) <| .cons (.execute rfl rfl) <| .cons (.complete rfl rfl) <|
      .cons (.leave rfl rfl rfl) <| .cons (.stop_notify rfl) <| .cons (.notify_all rfl) <|
      .cons (.join rfl rfl) <| .cons (.clear rfl) <| .nil _)
  obtain ⟨-, -, -, -, hstopped, -⟩ := loses_nothing (by decide) hrun
  exact ⟨_, hrun, rfl, rfl, (hstopped rfl).2.1⟩

end progress

end Mccl.ProgressEngine
