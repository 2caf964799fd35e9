import Mathlib.Data.List.Count
import Mccl.Framework.System

/-! # Waiting for Replies

    A client has sent commands to several servers and reads replies in a fixed
    order of servers. Each command is answered once, at any time. A read waits
    until a reply of its server is there.

    * `account_of_reach`: what a server still owes, what has arrived from it and
      the reads that are left for it, in every state.
    * `served_iff`: no read waits for good and no reply is left at the end exactly
      if every server is read as often as it was sent a command. -/

namespace Replies

variable {ι : Type} [DecidableEq ι]

structure State (ι : Type) where
  /-- The servers of the reads that are left. -/
  waiting : List ι
  /-- Commands that are not answered yet. -/
  owed : ι → Nat
  /-- Replies that have not been read. -/
  inbox : ι → Nat

inductive Label (ι : Type) where
  | answer (i : ι)
  | read (i : ι)

inductive Step : State ι → Label ι → State ι → Prop where
  | answer {s : State ι} {i : ι} (h : 0 < s.owed i) :
      Step s (.answer i)
        { s with
          owed := Function.update s.owed i (s.owed i - 1)
          inbox := Function.update s.inbox i (s.inbox i + 1) }
  | read {s : State ι} {i : ι} {rest : List ι} (hwaiting : s.waiting = i :: rest) (h : 0 < s.inbox i) :
      Step s (.read i) { s with waiting := rest, inbox := Function.update s.inbox i (s.inbox i - 1) }

/-- The client reads in the given order; `sent` are the commands for each server. -/
def exchange (order : List ι) (sent : ι → Nat) : System (State ι) (Label ι) :=
  ⟨fun s => s = ⟨order, sent, fun _ => 0⟩, Step⟩

variable {order : List ι} {sent : ι → Nat} {s s' : State ι}

/-- The next read has a reply to wait for, and after the last one nothing is left. -/
structure Settled (s : State ι) : Prop where
  answered : ∀ i rest, s.waiting = i :: rest → 0 < s.owed i + s.inbox i
  drained : s.waiting = [] → ∀ i, s.owed i + s.inbox i = 0

/-- The exchange is settled in every state. -/
def Served (order : List ι) (sent : ι → Nat) : Prop :=
  ∀ s, (exchange order sent).Reachable s → Settled s

theorem step_account {a : Label ι} (h : Step s a s') (i : ι) :
    s'.owed i + s'.inbox i + s.waiting.count i = s.owed i + s.inbox i + s'.waiting.count i := by
  cases h with
  | @answer j hj =>
    by_cases hi : i = j
    · subst hi
      simp only [Function.update_self]
      omega
    · simp [hi]
  | @read j rest hwaiting hj =>
    rw [hwaiting]
    by_cases hi : i = j
    · subst hi
      simp only [Function.update_self, List.count_cons_self]
      omega
    · simp [hi, List.count_cons_of_ne (Ne.symm hi)]

/-- Every command is owed, unread or has been read. -/
theorem account_of_reach (h : (exchange order sent).Reachable s) (i : ι) :
    s.owed i + s.inbox i + order.count i = sent i + s.waiting.count i := by
  refine h.invariant (I := fun s => s.owed i + s.inbox i + order.count i = sent i + s.waiting.count i) ?_ ?_
  · intro s hs
    subst hs
    rfl
  · intro s a s' hI _ hs
    have hstep := step_account hs i
    show s'.owed i + s'.inbox i + order.count i = sent i + s'.waiting.count i
    omega

/-- The next read can be made, if only its reply will come. -/
theorem exists_read (h : (exchange order sent).Reachable s) {i : ι} {rest : List ι} (hwaiting : s.waiting = i :: rest)
    (hreply : 0 < s.owed i + s.inbox i) : ∃ s', (exchange order sent).Reachable s' ∧ s'.waiting = rest := by
  by_cases hinbox : 0 < s.inbox i
  · exact ⟨_, h.next (.read hwaiting hinbox), rfl⟩
  · have howed : 0 < s.owed i := by omega
    have hanswered := h.next (.answer howed)
    refine ⟨_, hanswered.next (.read hwaiting ?_), rfl⟩
    simp

/-- An exchange that never waits in vain gets to its end. -/
theorem exists_finished (hserved : Served order sent) (h : (exchange order sent).Reachable s) :
    ∃ s', (exchange order sent).Reachable s' ∧ s'.waiting = [] := by
  induction hn : s.waiting generalizing s with
  | nil => exact ⟨s, h, hn⟩
  | cons i rest ih =>
    obtain ⟨s', h', hrest⟩ := exists_read h hn ((hserved s h).answered i rest hn)
    exact ih h' hrest

/-- **Replies balance**: each server is read as often as it was sent a command. -/
theorem served_iff : Served order sent ↔ ∀ i, order.count i = sent i := by
  constructor
  · intro hserved i
    obtain ⟨s, hreach, hdone⟩ := exists_finished hserved (.init rfl)
    have hempty := (hserved s hreach).drained hdone i
    have haccount := account_of_reach hreach i
    rw [hdone, List.count_nil] at haccount
    omega
  · intro hbalance s hreach
    constructor
    · intro i rest hwaiting
      have haccount := account_of_reach hreach i
      rw [hwaiting, List.count_cons_self, hbalance] at haccount
      omega
    · intro hdone i
      have haccount := account_of_reach hreach i
      rw [hdone, List.count_nil, hbalance] at haccount
      omega

end Replies
