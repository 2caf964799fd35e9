import Mccl.Framework.System
import Mccl.Framework.WriteOnce

/-! # Completion of a Work

    Model of `WorkMCCL` (`backend/WorkMCCL.cpp`) and of the task that `async_submit_`
    hands to the engine (`backend/ProcessGroupMCCL.cpp`). Any number of threads
    complete the work, wait for it and look at it.

    * **Steps**: taking and giving up `mu_`, every access to `completed_`,
      `exception_` and the future, and the notification are steps of their own. The
      critical sections of those that only look are one step each.
    * **Callbacks**: the body of a task and the callback of `finish` return or throw,
      every time anew.
    * **The cell** (`Right`): a work is a cell that is written by the call that
      completes it. Every look at it is logged at the moment of the access.
    * `work_completes_once`: the log is a history of a cell that is written at most
      once, and in the end the future says the same and nobody sleeps. -/

namespace Mccl.WorkMCCL

open WriteOnce Function

variable {ε ι : Type}

/-! ## The Cell -/

/-- What completes a work. Exceptions are not null: they come from
    `current_exception` in a handler, or from `make_exception_ptr`. -/
inductive Cause (ε : Type) where
  /-- `finish`, whose callback has returned, or which has none. -/
  | finished
  /-- `finish`, whose callback has thrown. -/
  | callback_threw (e : ε)
  /-- A call of `finishWithException`. -/
  | failed (e : ε)
  /-- The task of `async_submit_`, whose body has thrown. -/
  | body_threw (e : ε)

/-- The state of a future that is completed. -/
inductive Result (ε : Type) where
  | value
  | error (e : ε)

inductive WaitResult (ε : Type) where
  | returned
  | rethrown (e : ε)
  /-- It returns false. -/
  | timed_out

namespace Cause

def exception : Cause ε → Option ε
  | finished => none
  | callback_threw e | failed e | body_threw e => some e

/-- What the completing call makes of the future. -/
def result (c : Cause ε) : Result ε :=
  match c.exception with
  | none => .value
  | some e => .error e

/-- What becomes of a wait. -/
def waitResult (c : Cause ε) : WaitResult ε :=
  match c.exception with
  | none => .returned
  | some e => .rethrown e

theorem exception_eq_none {c : Cause ε} : c.exception = none ↔ c = .finished := by
  cases c <;> simp [exception]

end Cause

/-- What is seen of a work. -/
inductive Look (ε : Type) where
  | isCompleted (b : Bool)
  | isSuccess (b : Bool)
  | exception (e : Option ε)
  | wait (r : WaitResult ε)
  /-- The state of the future, if it is completed. -/
  | future (r : Option (Result ε))
  /-- A completing call finds the work completed and returns. -/
  | ignored

/-- What may be seen of a work that is open, or that `c` has completed. -/
def Right : Option (Cause ε) → Look ε → Prop
  | c, .isCompleted b => b = c.isSome
  | c, .isSuccess b => b = true ↔ c = some .finished
  | c, .exception e => e = c.bind Cause.exception
  | none, .wait r => r = .timed_out
  | some c, .wait r => r = c.waitResult
  | c, .future r => r = none ∨ r = c.map Cause.result
  | c, .ignored => c.isSome = true

/-! ## Threads -/

/-- Where a thread is. -/
inductive Thread (ε : Type) where
  | idle
  /-- In the body of a task. -/
  | body
  /-- In `finish`, before the callback. -/
  | callback
  /-- About to take `mu_`. -/
  | locking (c : Cause ε)
  /-- It has `mu_`. -/
  | exchanging (c : Cause ε)
  /-- `completed_` was false. It has `mu_`. -/
  | storing (c : Cause ε)
  | unlocking (c : Cause ε)
  /-- `completed_` was true. It has `mu_`. -/
  | leaving
  /-- Before `future_->completed()`. -/
  | checking (c : Cause ε)
  /-- Before `markCompleted` or `setError`. -/
  | marking (c : Cause ε)
  | notifying
  /-- In `wait`, about to take `mu_`. -/
  | waiting (timed : Bool)
  /-- It sleeps on `cv_`. -/
  | sleeping (timed : Bool)
  /-- Its time is up, and it is about to take `mu_`. -/
  | expired

namespace Thread

def holds : Thread ε → Bool
  | exchanging _ | storing _ | unlocking _ | leaving => true
  | _ => false

/-- It has completed the work and not yet its future. -/
def won : Thread ε → Option (Cause ε)
  | storing c | unlocking c | checking c | marking c => some c
  | _ => none

/-- A notification of `cv_`. -/
def wake : Thread ε → Thread ε
  | sleeping timed => waiting timed
  | t => t

def IsSleeping (t : Thread ε) : Prop := ∃ timed, t = sleeping timed

/-- It has still to notify. -/
def Busy (t : Thread ε) : Prop := t.won ≠ none ∨ t = notifying

theorem holds_wake (t : Thread ε) : t.wake.holds = t.holds := by
  cases t <;> rfl

theorem won_wake (t : Thread ε) : t.wake.won = t.won := by
  cases t <;> rfl

theorem not_isSleeping_wake (t : Thread ε) : ¬t.wake.IsSleeping := by
  intro h
  obtain ⟨timed, h⟩ := h
  cases t <;> cases h

end Thread

structure State (ε ι : Type) where
  thread : ι → Thread ε
  /-- Who has the mutex. -/
  mu_ : Option ι
  completed_ : Bool
  exception_ : Option ε
  future_ : Option (Result ε)
  log : List (Event (Cause ε) (Look ε))

namespace State

def record (s : State ε ι) (ev : Event (Cause ε) (Look ε)) : State ε ι := { s with log := s.log ++ [ev] }

/-- What a wait finds when the work is completed. -/
def waitResult (s : State ε ι) : WaitResult ε :=
  match s.exception_ with
  | none => .returned
  | some e => .rethrown e

def goto [DecidableEq ι] (s : State ε ι) (i : ι) (t : Thread ε) : State ε ι :=
  { s with thread := Function.update s.thread i t }

end State

/-! ## Steps -/

/-- A step of thread `i`. -/
inductive Step [DecidableEq ι] : State ε ι → ι → State ε ι → Prop where
  /-- The engine runs the task of `async_submit_`. -/
  | submit {s : State ε ι} (i : ι) (h : s.thread i = .idle) : Step s i (s.goto i .body)
  | bodyReturns {s : State ε ι} (i : ι) (h : s.thread i = .body) : Step s i (s.goto i .callback)
  | bodyThrows {s : State ε ι} (i : ι) (e : ε) (h : s.thread i = .body) :
      Step s i (s.goto i (.locking (.body_threw e)))
  | finish {s : State ε ι} (i : ι) (h : s.thread i = .idle) : Step s i (s.goto i .callback)
  | callbackReturns {s : State ε ι} (i : ι) (h : s.thread i = .callback) :
      Step s i (s.goto i (.locking .finished))
  | callbackThrows {s : State ε ι} (i : ι) (e : ε) (h : s.thread i = .callback) :
      Step s i (s.goto i (.locking (.callback_threw e)))
  | finishWithException {s : State ε ι} (i : ι) (e : ε) (h : s.thread i = .idle) :
      Step s i (s.goto i (.locking (.failed e)))
  | lock {s : State ε ι} (i : ι) {c : Cause ε} (h : s.thread i = .locking c) (hfree : s.mu_ = none) :
      Step s i { s.goto i (.exchanging c) with mu_ := some i }
  /-- `completed_.exchange(true)` returns false. -/
  | win {s : State ε ι} (i : ι) {c : Cause ε} (h : s.thread i = .exchanging c) (hopen : s.completed_ = false) :
      Step s i { (s.goto i (.storing c)).record (.write c) with completed_ := true }
  /-- `completed_.exchange(true)` returns true. -/
  | lose {s : State ε ι} (i : ι) {c : Cause ε} (h : s.thread i = .exchanging c) (hdone : s.completed_ = true) :
      Step s i ((s.goto i .leaving).record (.see .ignored))
  | leave {s : State ε ι} (i : ι) (h : s.thread i = .leaving) : Step s i { s.goto i .idle with mu_ := none }
  /-- `exception_ = eptr`, if there is one. -/
  | store {s : State ε ι} (i : ι) {c : Cause ε} (h : s.thread i = .storing c) :
      Step s i { s.goto i (.unlocking c) with exception_ := c.exception.or s.exception_ }
  | unlock {s : State ε ι} (i : ι) {c : Cause ε} (h : s.thread i = .unlocking c) :
      Step s i { s.goto i (.checking c) with mu_ := none }
  | check {s : State ε ι} (i : ι) {c : Cause ε} (h : s.thread i = .checking c) :
      Step s i (s.goto i (if s.future_.isNone then .marking c else .notifying))
  | mark {s : State ε ι} (i : ι) {c : Cause ε} (h : s.thread i = .marking c) :
      Step s i { s.goto i .notifying with future_ := some c.result }
  | notify {s : State ε ι} (i : ι) (h : s.thread i = .notifying) :
      Step s i { s with thread := Function.update (fun j => (s.thread j).wake) i .idle }
  | isCompleted {s : State ε ι} (i : ι) (h : s.thread i = .idle) :
      Step s i (s.record (.see (.isCompleted s.completed_)))
  | isSuccess {s : State ε ι} (i : ι) (h : s.thread i = .idle) (hfree : s.mu_ = none) :
      Step s i (s.record (.see (.isSuccess (s.completed_ && s.exception_.isNone))))
  | exception {s : State ε ι} (i : ι) (h : s.thread i = .idle) (hfree : s.mu_ = none) :
      Step s i (s.record (.see (.exception s.exception_)))
  | future {s : State ε ι} (i : ι) (h : s.thread i = .idle) :
      Step s i (s.record (.see (.future s.future_)))
  | wait {s : State ε ι} (i : ι) (timed : Bool) (h : s.thread i = .idle) : Step s i (s.goto i (.waiting timed))
  /-- The mutex is given up when the thread falls asleep. -/
  | sleep {s : State ε ι} (i : ι) {timed : Bool} (h : s.thread i = .waiting timed) (hfree : s.mu_ = none)
      (hopen : s.completed_ = false) : Step s i (s.goto i (.sleeping timed))
  /-- A spurious wake-up. -/
  | wakeUp {s : State ε ι} (i : ι) {timed : Bool} (h : s.thread i = .sleeping timed) :
      Step s i (s.goto i (.waiting timed))
  | expire {s : State ε ι} (i : ι) (h : s.thread i = .sleeping true) : Step s i (s.goto i .expired)
  | timeOut {s : State ε ι} (i : ι) (h : s.thread i = .expired) (hfree : s.mu_ = none)
      (hopen : s.completed_ = false) : Step s i ((s.goto i .idle).record (.see (.wait .timed_out)))
  | waited {s : State ε ι} (i : ι) (h : s.thread i = .expired ∨ ∃ timed, s.thread i = .waiting timed)
      (hfree : s.mu_ = none) (hdone : s.completed_ = true) :
      Step s i ((s.goto i .idle).record (.see (.wait s.waitResult)))

def init (s : State ε ι) : Prop := s = ⟨fun _ => .idle, none, false, none, none, []⟩

/-- A work and the threads that use it. -/
def system (ε ι : Type) [DecidableEq ι] : System (State ε ι) ι := ⟨init, Step⟩

/-! ## Who Completes the Future -/

/-- What the call that has completed the work still has to do. -/
structure Settling (c : Option (Cause ε)) (won : ι → Option (Cause ε)) (future_ : Option (Result ε)) : Prop where
  winner : ∀ i c', won i = some c' → c = some c'
  one : ∀ i j, won i ≠ none → won j ≠ none → i = j
  unmarked : ∀ i, won i ≠ none → future_ = none
  marked : future_ = c.map Cause.result ∨ future_ = none ∧ ∃ i, won i ≠ none

namespace Settling

variable {c : Option (Cause ε)} {c' : Cause ε} {won : ι → Option (Cause ε)} {future_ : Option (Result ε)}

/-- The work is open, so nobody has completed it. -/
theorem won_eq_none (h : Settling none won future_) (i : ι) : won i = none := by
  cases hwon : won i with
  | none => rfl
  | some c' => cases h.winner i c' hwon

variable [DecidableEq ι] {i : ι}

theorem win (h : Settling none won future_) : Settling (some c') (update won i (some c')) future_ := by
  have hself : update won i (some c') i = some c' := update_self ..
  have hwon : ∀ j, update won i (some c') j ≠ none → j = i := by
    intro j hj
    by_contra hne
    rw [update_of_ne hne] at hj
    exact hj (h.won_eq_none j)
  have hfuture : future_ = none := by
    rcases h.marked with hfuture | ⟨hnone, -⟩
    · exact hfuture
    · exact hnone
  refine ⟨?_, ?_, fun _ _ => hfuture, .inr ⟨hfuture, i, by rw [hself]; nofun⟩⟩
  · intro j c'' hj
    have hji := hwon j (by rw [hj]; nofun)
    rwa [hji, hself] at hj
  · intro j k hj hk
    exact (hwon j hj).trans (hwon k hk).symm

/-- The winner is done with the future, and there is no other. -/
theorem mark (h : Settling c won future_) (hi : won i = some c') :
    Settling c (update won i none) (some c'.result) := by
  have hwon : ∀ j, update won i none j = none := by
    intro j
    by_cases heq : j = i
    · rw [heq, update_self]
    · rw [update_of_ne heq]
      by_contra hne
      exact heq (h.one j i hne (by rw [hi]; nofun))
  refine ⟨?_, ?_, ?_, .inl ?_⟩
  · intro j c'' hj
    cases (hwon j).symm.trans hj
  · intro j k hj
    exact absurd (hwon j) hj
  · intro j hj
    exact absurd (hwon j) hj
  · rw [h.winner i c' hi]
    rfl

end Settling

/-! ## The Invariant -/

/-- Only who has the mutex is in a critical section. -/
def Exclusive (s : State ε ι) : Prop := ∀ i, (s.thread i).holds = true → s.mu_ = some i

/-- What holds of a work that is open, or that `c` has completed. -/
structure Inv (c : Option (Cause ε)) (s : State ε ι) : Prop where
  history : Run Right s.log c
  exclusive : Exclusive s
  completed : s.completed_ = c.isSome
  settling : Settling c (fun i => (s.thread i).won) s.future_
  /-- The exception is set before the mutex is given up. -/
  exception : s.exception_ = c.bind Cause.exception ∨ s.exception_ = none ∧ ∃ i c', s.thread i = .storing c'
  asleep : c ≠ none → ∀ i, (s.thread i).IsSleeping → ∃ j, (s.thread j).Busy

variable {s s' : State ε ι} {c : Option (Cause ε)} {c' : Cause ε} {i : ι} {t : Thread ε}

namespace Inv

/-- While the mutex is free, the exception is that of the completing call. -/
theorem exception_of_free (h : Inv c s) (hfree : s.mu_ = none) : s.exception_ = c.bind Cause.exception := by
  rcases h.exception with hset | ⟨-, j, c', hj⟩
  · exact hset
  · have := h.exclusive j (by rw [hj]; rfl)
    rw [hfree] at this
    cases this

/-- An event that only shows the work. -/
theorem record (h : Inv c s) {b : Look ε} (hb : Right c b) : Inv c (s.record (.see b)) :=
  { h with history := h.history.see hb }

/-- What `isSuccess` computes while the mutex is free. -/
theorem right_isSuccess (h : Inv c s) (hfree : s.mu_ = none) :
    Right c (.isSuccess (s.completed_ && s.exception_.isNone)) := by
  rw [h.completed, h.exception_of_free hfree]
  cases c with
  | none => simp [Right]
  | some c => simp [Right, Cause.exception_eq_none]

/-- What `wait` does when it finds the work completed. -/
theorem right_wait (h : Inv c s) (hfree : s.mu_ = none) (hdone : s.completed_ = true) :
    Right c (.wait s.waitResult) := by
  rw [h.completed] at hdone
  cases c with
  | none => cases hdone
  | some c =>
    show s.waitResult = c.waitResult
    rw [State.waitResult, h.exception_of_free hfree]
    rfl

theorem right_future (h : Inv c s) : Right c (.future s.future_) := by
  rcases h.settling.marked with hfuture | ⟨hnone, -⟩
  · exact .inr hfuture
  · exact .inl hnone

theorem eq_none_of_open (h : Inv c s) (hopen : s.completed_ = false) : c = none := by
  rw [h.completed] at hopen
  exact Option.isNone_iff_eq_none.mp (by simpa using hopen)

theorem busy_of_won (hi : (s.thread i).won = some c') : (s.thread i).Busy := .inl (by rw [hi]; nofun)

end Inv

variable [DecidableEq ι]

theorem thread_goto (j : ι) : (s.goto i t).thread j = if j = i then t else s.thread j := update_apply ..

theorem won_goto : (fun j => ((s.goto i t).thread j).won) = update (fun j => (s.thread j).won) i t.won :=
  Function.comp_update Thread.won s.thread i t

namespace Exclusive

theorem goto (h : Exclusive s) (ht : t.holds = true → s.mu_ = some i) : Exclusive (s.goto i t) := by
  intro j hj
  rw [thread_goto] at hj
  split at hj
  case isTrue heq =>
    rw [heq]
    exact ht hj
  case isFalse => exact h j hj

/-- The mutex is free, and thread `i` takes it. -/
theorem lock (h : Exclusive s) (hfree : s.mu_ = none) : Exclusive { s.goto i t with mu_ := some i } := by
  intro j hj
  have hj' : ((s.goto i t).thread j).holds = true := hj
  rw [thread_goto] at hj'
  split at hj'
  case isTrue heq => rw [heq]
  case isFalse =>
    have := h j hj'
    rw [hfree] at this
    cases this

/-- Thread `i` has the mutex and gives it up. -/
theorem unlock (h : Exclusive s) (hi : (s.thread i).holds = true) (ht : t.holds = false) :
    Exclusive { s.goto i t with mu_ := none } := by
  intro j hj
  have hj' : ((s.goto i t).thread j).holds = true := hj
  rw [thread_goto] at hj'
  split at hj'
  case isTrue =>
    rw [ht] at hj'
    cases hj'
  case isFalse hne =>
    have := (h i hi).symm.trans (h j hj')
    exact absurd (Option.some.inj this).symm hne

end Exclusive

/-- Thread `i` goes on to `t` and the work stays as it is, but for the mutex. -/
structure Moves (i : ι) (t : Thread ε) (s s' : State ε ι) : Prop where
  thread : s'.thread = (s.goto i t).thread
  log : s'.log = s.log
  completed : s'.completed_ = s.completed_
  exception : s'.exception_ = s.exception_
  future : s'.future_ = s.future_

namespace Inv

/-- Sleepers are notified if the thread that moves has still to do it when it had
    before. -/
theorem asleep_goto (h : Inv c s) (hbusy : (s.thread i).Busy → t.Busy) (hsleep : t.IsSleeping → c = none) :
    c ≠ none → ∀ j, ((s.goto i t).thread j).IsSleeping → ∃ k, ((s.goto i t).thread k).Busy := by
  intro hc j hj
  rw [thread_goto] at hj
  split at hj
  case isTrue => exact absurd (hsleep hj) hc
  case isFalse =>
    obtain ⟨k, hk⟩ := h.asleep hc j hj
    refine ⟨k, ?_⟩
    rw [thread_goto]
    split
    case isTrue heq => exact hbusy (heq ▸ hk)
    case isFalse => exact hk

theorem exception_goto (h : Inv c s) (hstoring : ∀ c', s.thread i ≠ .storing c') :
    s.exception_ = c.bind Cause.exception ∨
      s.exception_ = none ∧ ∃ j c', (s.goto i t).thread j = .storing c' := by
  rcases h.exception with hset | ⟨hunset, j, c', hj⟩
  · exact .inl hset
  · refine .inr ⟨hunset, j, c', ?_⟩
    rw [thread_goto, if_neg, hj]
    intro heq
    exact hstoring c' (heq ▸ hj)

/-- A thread that goes on keeps the invariant if it stays in or out of the completion. -/
theorem move (h : Inv c s) (hm : Moves i t s s') (hexclusive : Exclusive s') (hwon : t.won = (s.thread i).won)
    (hstoring : ∀ c', s.thread i ≠ .storing c') (hbusy : (s.thread i).Busy → t.Busy)
    (hsleep : t.IsSleeping → c = none) : Inv c s' := by
  refine ⟨?_, hexclusive, ?_, ?_, ?_, ?_⟩
  · rw [hm.log]
    exact h.history
  · rw [hm.completed]
    exact h.completed
  · have hsame : (fun j => (s'.thread j).won) = fun j => (s.thread j).won := by
      rw [hm.thread, won_goto, hwon, update_eq_self]
    rw [hsame, hm.future]
    exact h.settling
  · rw [hm.exception, hm.thread]
    exact h.exception_goto hstoring
  · rw [hm.thread]
    exact h.asleep_goto hbusy hsleep

/-- A thread that does not complete the work goes on. -/
theorem outside (h : Inv c s) (hm : Moves i t s s') (hexclusive : Exclusive s') {u : Thread ε}
    (hi : s.thread i = u) (hu : u.won = none ∧ u ≠ .notifying) (ht : t.won = none)
    (hsleep : t.IsSleeping → c = none) : Inv c s' := by
  subst hi
  refine h.move hm hexclusive (ht.trans hu.1.symm) ?_ ?_ hsleep
  · intro c' heq
    rw [heq] at hu
    cases hu.1
  · intro hbusy
    rcases hbusy with hwon | hnotify
    · exact absurd hu.1 hwon
    · exact absurd hnotify hu.2

/-- The same, without the mutex. -/
theorem goto (h : Inv c s) {u : Thread ε} (hi : s.thread i = u) (hu : u.won = none ∧ u ≠ .notifying)
    (ht : t.won = none ∧ t.holds = false) (hsleep : t.IsSleeping → c = none) : Inv c (s.goto i t) := by
  refine h.outside ⟨rfl, rfl, rfl, rfl, rfl⟩ (h.exclusive.goto ?_) hi hu ht.1 hsleep
  intro hholds
  rw [ht.2] at hholds
  cases hholds

/-- The thread that has completed the work goes on to its future. -/
theorem inside (h : Inv c s) (hm : Moves i t s s') (hexclusive : Exclusive s') {u : Thread ε}
    (hi : s.thread i = u) (hu : u.won = some c' ∧ u ≠ .storing c') (ht : t.won = some c') : Inv c s' := by
  subst hi
  refine h.move hm hexclusive (ht.trans hu.1.symm) ?_ (fun _ => .inl (by rw [ht]; nofun)) ?_
  · intro c'' heq
    obtain rfl : c'' = c' := by
      have := hu.1
      rw [heq] at this
      exact Option.some.inj this
    exact hu.2 heq
  · intro hsleep
    obtain ⟨timed, rfl⟩ := hsleep
    cases ht

theorem win (h : Inv none s) (hi : s.thread i = .exchanging c') :
    Inv (some c') { (s.goto i (.storing c')).record (.write c') with completed_ := true } := by
  have hself : (s.goto i (.storing c')).thread i = .storing c' := update_self ..
  have hunset : s.exception_ = none := by
    rcases h.exception with hset | ⟨hunset, -⟩
    · exact hset
    · exact hunset
  -- the exception is still to be stored, which is why the invariant names the storing thread
  refine ⟨h.history.write c', ?_, rfl, ?_, .inr ⟨hunset, i, c', hself⟩, ?_⟩
  · exact h.exclusive.goto fun _ => h.exclusive i (by rw [hi]; rfl)
  · show Settling _ (fun j => ((s.goto i (.storing c')).thread j).won) s.future_
    rw [won_goto]
    exact h.settling.win
  · intro _ _ _
    exact ⟨i, busy_of_won (congrArg Thread.won hself)⟩

theorem store (h : Inv c s) (hi : s.thread i = .storing c') :
    Inv c { s.goto i (.unlocking c') with exception_ := c'.exception.or s.exception_ } := by
  have hwinner : c = some c' := h.settling.winner i c' (congrArg Thread.won hi)
  have hexception : c'.exception.or s.exception_ = c.bind Cause.exception := by
    rcases h.exception with hset | ⟨hunset, -⟩
    · rw [hset, hwinner]
      show c'.exception.or c'.exception = c'.exception
      cases c'.exception <;> rfl
    · rw [hunset, Option.or_none, hwinner]
      rfl
  refine ⟨h.history, ?_, h.completed, ?_, .inl hexception, ?_⟩
  · exact h.exclusive.goto fun _ => h.exclusive i (by rw [hi]; rfl)
  · show Settling _ (fun j => ((s.goto i (.unlocking c')).thread j).won) s.future_
    have hsame : (Thread.unlocking c').won = (s.thread i).won := by rw [hi]; rfl
    rw [won_goto, hsame, update_eq_self]
    exact h.settling
  · exact h.asleep_goto (fun _ => .inl nofun) nofun

theorem mark (h : Inv c s) (hi : s.thread i = .marking c') :
    Inv c { s.goto i .notifying with future_ := some c'.result } := by
  refine ⟨h.history, h.exclusive.goto nofun, h.completed, ?_, ?_, ?_⟩
  · show Settling _ (fun j => ((s.goto i .notifying).thread j).won) (some c'.result)
    rw [won_goto]
    exact h.settling.mark (congrArg Thread.won hi)
  · exact h.exception_goto (by simp [hi])
  · exact h.asleep_goto (fun _ => .inr rfl) nofun

theorem notify (h : Inv c s) (hi : s.thread i = .notifying) :
    Inv c { s with thread := update (fun j => (s.thread j).wake) i .idle } := by
  have hthread : ∀ j, update (fun j => (s.thread j).wake) i .idle j =
      if j = i then .idle else (s.thread j).wake := fun _ => update_apply ..
  refine ⟨h.history, ?_, h.completed, ?_, ?_, ?_⟩
  · intro j hj
    have hj' : (update (fun j => (s.thread j).wake) i .idle j).holds = true := hj
    rw [hthread] at hj'
    split at hj'
    · cases hj'
    · exact h.exclusive j ((Thread.holds_wake _).symm.trans hj')
  · have hsame : (fun j => (update (fun j => (s.thread j).wake) i .idle j).won) =
        fun j => (s.thread j).won := by
      funext j
      rw [hthread]
      split
      case isTrue heq => rw [heq, hi]; rfl
      case isFalse => exact Thread.won_wake _
    show Settling _ (fun j => (update (fun j => (s.thread j).wake) i .idle j).won) s.future_
    rw [hsame]
    exact h.settling
  · rcases h.exception with hset | ⟨hunset, j, c'', hj⟩
    · exact .inl hset
    · refine .inr ⟨hunset, j, c'', ?_⟩
      show update (fun j => (s.thread j).wake) i .idle j = .storing c''
      rw [hthread, if_neg, hj]
      · rfl
      · intro heq
        rw [heq, hi] at hj
        cases hj
  · -- everybody has been woken
    intro _ j hj
    have hj' : (update (fun j => (s.thread j).wake) i .idle j).IsSleeping := hj
    rw [hthread] at hj'
    split at hj'
    · obtain ⟨timed, hj'⟩ := hj'
      cases hj'
    · exact absurd hj' (Thread.not_isSleeping_wake _)

/-- Every step keeps the invariant; only `win` writes the cell, and only if it is
    empty. -/
theorem step (h : Inv c s) (hs : Step s i s') : ∃ c', Inv c' s' := by
  cases hs with
  | submit ht | bodyReturns ht | bodyThrows e ht | finish ht | callbackReturns ht
  | callbackThrows e ht | finishWithException e ht | wait timed ht | wakeUp ht | expire ht =>
    exact ⟨c, h.goto ht ⟨rfl, nofun⟩ ⟨rfl, rfl⟩ nofun⟩
  | lock ht hfree =>
    exact ⟨c, h.outside ⟨rfl, rfl, rfl, rfl, rfl⟩ (h.exclusive.lock hfree) ht ⟨rfl, nofun⟩ rfl nofun⟩
  | @win c' ht hopen =>
    obtain rfl := h.eq_none_of_open hopen
    exact ⟨some c', h.win ht⟩
  | lose ht hdone =>
    have hholds : (s.thread i).holds = true := by rw [ht]; rfl
    have hleaving : Inv c (s.goto i .leaving) := h.outside ⟨rfl, rfl, rfl, rfl, rfl⟩
      (h.exclusive.goto fun _ => h.exclusive i hholds) ht ⟨rfl, nofun⟩ rfl nofun
    exact ⟨c, hleaving.record (h.completed.symm.trans hdone)⟩
  | leave ht =>
    have hholds : (s.thread i).holds = true := by rw [ht]; rfl
    exact ⟨c, h.outside ⟨rfl, rfl, rfl, rfl, rfl⟩ (h.exclusive.unlock hholds rfl) ht ⟨rfl, nofun⟩ rfl nofun⟩
  | store ht => exact ⟨c, h.store ht⟩
  | unlock ht =>
    have hholds : (s.thread i).holds = true := by rw [ht]; rfl
    exact ⟨c, h.inside ⟨rfl, rfl, rfl, rfl, rfl⟩ (h.exclusive.unlock hholds rfl) ht ⟨rfl, nofun⟩ rfl⟩
  | check ht =>
    -- nobody else touches the future
    have hnone : s.future_ = none := h.settling.unmarked i (by simp [ht, Thread.won])
    rw [hnone, Option.isNone_none, if_pos rfl]
    exact ⟨c, h.inside ⟨rfl, rfl, rfl, rfl, rfl⟩ (h.exclusive.goto nofun) ht ⟨rfl, nofun⟩ rfl⟩
  | mark ht => exact ⟨c, h.mark ht⟩
  | notify ht => exact ⟨c, h.notify ht⟩
  | isCompleted ht => exact ⟨c, h.record h.completed⟩
  | isSuccess ht hfree => exact ⟨c, h.record (h.right_isSuccess hfree)⟩
  | exception ht hfree => exact ⟨c, h.record (h.exception_of_free hfree)⟩
  | future ht => exact ⟨c, h.record h.right_future⟩
  | sleep ht hfree hopen =>
    exact ⟨c, h.goto ht ⟨rfl, nofun⟩ ⟨rfl, rfl⟩ fun _ => h.eq_none_of_open hopen⟩
  | timeOut ht hfree hopen =>
    obtain rfl := h.eq_none_of_open hopen
    have hidle : Inv none (s.goto i .idle) := h.goto ht ⟨rfl, nofun⟩ ⟨rfl, rfl⟩ nofun
    exact ⟨none, hidle.record rfl⟩
  | waited ht hfree hdone =>
    refine ⟨c, (Inv.goto h (t := .idle) rfl ?_ ⟨rfl, rfl⟩ nofun).record (h.right_wait hfree hdone)⟩
    rcases ht with ht | ⟨timed, ht⟩
    · simp [ht, Thread.won]
    · simp [ht, Thread.won]

end Inv

/-! ## The Future in the Log -/

/-- A future that has been seen completed is seen so from then on. -/
def Stable (log : List (Event (Cause ε) (Look ε))) : Prop :=
  log.Pairwise fun x y => ∀ r r', x = .see (.future (some r)) → y = .see (.future r') → r' = some r

/-- What has been seen of the future is still its state. -/
structure Shown (s : State ε ι) : Prop where
  seen : ∀ r, .see (.future (some r)) ∈ s.log → s.future_ = some r
  stable : Stable s.log

theorem step_effect (hs : Step s i s') :
    (s'.future_ = s.future_ ∨ ∃ c', s.thread i = .marking c') ∧
    (s'.log = s.log ∨ ∃ ev, s'.log = s.log ++ [ev] ∧ ∀ r, ev = .see (.future r) → r = s.future_ ∧ s'.future_ = r) := by
  cases hs with
  | mark ht => exact ⟨.inr ⟨_, ht⟩, .inl rfl⟩
  | win ht hopen | lose ht hdone | isCompleted ht | isSuccess ht hfree | exception ht hfree =>
    exact ⟨.inl rfl, .inr ⟨_, rfl, nofun⟩⟩
  | future ht =>
    refine ⟨.inl rfl, .inr ⟨_, rfl, fun r hr => ?_⟩⟩
    cases hr
    exact ⟨rfl, rfl⟩
  | timeOut ht hfree hopen | waited ht hfree hdone => exact ⟨.inl rfl, .inr ⟨_, rfl, nofun⟩⟩
  | submit | bodyReturns | bodyThrows | finish | callbackReturns | callbackThrows | finishWithException | lock | leave
  | store | unlock | check | notify | wait | sleep | wakeUp | expire => exact ⟨.inl rfl, .inl rfl⟩

theorem Shown.step (h : Shown s) (hinv : Inv c s) (hs : Step s i s') : Shown s' := by
  obtain ⟨hfuture, hlog⟩ := step_effect hs
  -- the future is completed only once
  have hkeep : ∀ r, s.future_ = some r → s'.future_ = some r := by
    intro r hr
    rcases hfuture with hsame | ⟨c', hc'⟩
    · rw [hsame, hr]
    · have := hinv.settling.unmarked i (by simp [hc', Thread.won])
      rw [hr] at this
      cases this
  rcases hlog with hsame | ⟨ev, hev, hright⟩
  · constructor
    · intro r hr
      rw [hsame] at hr
      exact hkeep r (h.seen r hr)
    · rw [hsame]
      exact h.stable
  · constructor
    · intro r hr
      rw [hev] at hr
      rcases List.mem_append.mp hr with hr | hr
      · exact hkeep r (h.seen r hr)
      · exact (hright (some r) (List.mem_singleton.mp hr).symm).2
    · rw [hev]
      refine List.pairwise_append.mpr ⟨h.stable, List.pairwise_singleton .., fun x hx y hy r r' hxr hyr => ?_⟩
      rw [List.mem_singleton.mp hy] at hyr
      rw [(hright r' hyr).1]
      exact h.seen r (hxr ▸ hx)

/-! ## Completion -/

/-- The log is that of a cell that is written at most once, and who has written it leaves
    the work as it is seen. -/
structure CompletesOnce (s : State ε ι) : Prop where
  open_ : s.completed_ = false → Sees Right none s.log
  completed : s.completed_ = true → ∃ before c after, s.log = before ++ .write c :: after
  once : ∀ before c after, s.log = before ++ .write c :: after → Sees Right none before ∧ Sees Right (some c) after
  stable : Stable s.log
  /-- When the completing call has returned. -/
  final : ∀ before c after, s.log = before ++ .write c :: after → (∀ i, ¬(s.thread i).Busy) →
    s.completed_ = true ∧ s.exception_ = c.exception ∧ s.future_ = some c.result ∧ ∀ i, ¬(s.thread i).IsSleeping

theorem exists_inv (h : (system ε ι).Reachable s) : (∃ c, Inv c s) ∧ Shown s := by
  refine h.invariant (I := fun s => (∃ c, Inv c s) ∧ Shown s) ?_ ?_
  · intro s hinit
    obtain rfl : s = _ := hinit
    refine ⟨⟨none, .nil, nofun, rfl, ?_, .inl rfl, nofun⟩, nofun, List.Pairwise.nil⟩
    exact ⟨nofun, fun _ _ hne => absurd rfl hne, fun _ hne => absurd rfl hne, .inl rfl⟩
  · intro s i s' hinv _ hs
    obtain ⟨⟨c, hc⟩, hshown⟩ := hinv
    exact ⟨hc.step hs, hshown.step hc hs⟩

/-- **A work completes once**, whatever the threads do: everything that is seen of it
    before the one completing call is open, everything that is seen later agrees with
    that call, and when the call has returned, so does the future. -/
theorem work_completes_once (h : (system ε ι).Reachable s) : CompletesOnce s := by
  obtain ⟨⟨c, hinv⟩, hshown⟩ := exists_inv h
  refine ⟨?_, ?_, ?_, hshown.stable, ?_⟩
  · intro hopen
    exact hinv.history.sees (hinv.eq_none_of_open hopen)
  · intro hdone
    rw [hinv.completed] at hdone
    obtain ⟨c', hc'⟩ := Option.isSome_iff_exists.mp hdone
    obtain ⟨before, after, hlog, -⟩ := hinv.history.exists_write hc'
    exact ⟨before, c', after, hlog⟩
  · intro before c' after hlog
    exact (hinv.history.split hlog).2
  · intro before c' after hlog hquiet
    obtain rfl := (hinv.history.split hlog).1
    have hwon : ∀ i, ¬(s.thread i).won ≠ none := fun i hne => hquiet i (.inl hne)
    refine ⟨hinv.completed, ?_, ?_, fun i hi => ?_⟩
    · rcases hinv.exception with hset | ⟨-, i, c'', hi⟩
      · exact hset
      · exact absurd (by simp [hi, Thread.won]) (hwon i)
    · rcases hinv.settling.marked with hfuture | ⟨-, i, hi⟩
      · exact hfuture
      · exact absurd hi (hwon i)
    · obtain ⟨j, hj⟩ := hinv.asleep nofun i hi
      exact hquiet j hj

/-- Thread 0 finishes the work while thread 1 fails it, and thread 2 looks on. -/
theorem work_completes_once_race : ∃ s : State Nat Nat, (system Nat Nat).Reachable s ∧ CompletesOnce s ∧
    s.log = [.write (.failed 7), .see (.isCompleted true), .see .ignored, .see (.isSuccess false)] ∧
    s.future_ = some (.error 7) := by
  have h0 : (system Nat Nat).Reachable _ := .init rfl
  have h1 := h0.next (.finish 0 rfl)
  have h2 := h1.next (.callbackReturns 0 rfl)
  have h3 := h2.next (.finishWithException 1 7 rfl)
  have h4 := h3.next (.lock 1 rfl rfl)
  have h5 := h4.next (.win 1 rfl rfl)
  have h6 := h5.next (.isCompleted 2 rfl)
  have h7 := h6.next (.store 1 rfl)
  have h8 := h7.next (.unlock 1 rfl)
  have h9 := h8.next (.lock 0 rfl rfl)
  have h10 := h9.next (.lose 0 rfl rfl)
  have h11 := h10.next (.leave 0 rfl)
  have h12 := h11.next (.isSuccess 2 rfl rfl)
  have h13 := h12.next (.check 1 rfl)
  have h14 := h13.next (.mark 1 rfl)
  have h15 := h14.next (.notify 1 rfl)
  exact ⟨_, h15, work_completes_once h15, rfl, rfl⟩

end Mccl.WorkMCCL
