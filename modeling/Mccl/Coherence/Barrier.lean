import Mccl.Coherence.Directory

/-! # The Cluster Barrier

    `barrier_all` and the handling of `BARRIER_ENTER` and `BARRIER_LEAVE`, step by
    step: the head (node 0) and the agents each run a calling thread and a thread that
    handles messages, and the two share `barrier_count_` or `global_epoch_`.

    * The handler of the head releases the agents as soon as all of them have entered,
      whether or not the head has called `barrier_all` itself.
    * The calling thread of the head may see the full count as well and release the
      agents a second time; the second `BARRIER_LEAVE` then ends the next round.
    * `barrier_all_safe`: the barrier is right in runs in which the last `BARRIER_ENTER` of a
      round is handled while the head is in that round, and an agent does not enter the
      next round before the release of the last one is over.

    A `BARRIER_LEAVE` carries the epoch of the head, which nobody reads; it is left
    out, and the messages in flight are counted. `barrier_count_` stays below the
    number of nodes, so that its width does not matter. -/

namespace Mccl.Coherence.Barrier

/-! ## Threads -/

/-- Where the head is in `barrier_all`. -/
inductive Caller where
  | outside
  /-- In the loop that reads `barrier_count_`. -/
  | waiting
  /-- The next node to send `BARRIER_LEAVE` to. -/
  | sending (next : Nat)
deriving DecidableEq

/-- Where the head is in the handling of a `BARRIER_ENTER`. -/
inductive Handler where
  | idle
  | sending (next : Nat)
deriving DecidableEq

structure Head where
  barrier_count_ : Nat
  caller : Caller
  handler : Handler
  /-- How often the head has called `barrier_all`, and how often it has returned. -/
  calls : Nat
  returns : Nat

/-- Where an agent is in `barrier_all`, with its `wait_epoch`. -/
inductive Phase where
  | outside
  /-- The epoch has been advanced, `BARRIER_ENTER` is not sent yet. -/
  | entering (wait_epoch : UInt64)
  /-- In the loop that reads `global_epoch_`. -/
  | waiting (wait_epoch : UInt64)
deriving DecidableEq

structure Agent where
  global_epoch_ : UInt64
  phase : Phase
  /-- The `BARRIER_ENTER` messages on their way to the head. -/
  enter : Nat
  /-- The `BARRIER_LEAVE` messages on their way to the agent. -/
  leave : Nat
  calls : Nat
  returns : Nat

structure State where
  head : Head
  agent : Nat → Agent

def State.setHead (s : State) (h : Head) : State := { s with head := h }

def State.setAgent (s : State) (i : Nat) (a : Agent) : State := { s with agent := Function.update s.agent i a }

/-- A `BARRIER_LEAVE` is sent to node `k`. -/
def State.sendLeave (s : State) (k : Nat) : State :=
  s.setAgent k { s.agent k with leave := (s.agent k).leave + 1 }

inductive Label where
  | headCall
  | headSees
  | headSend
  | headReset
  | handleEnter (i : Nat)
  | handlerSend
  | handlerReset
  | agentCall (i : Nat)
  | agentSend (i : Nat)
  | handleLeave (i : Nat)
  | agentReturn (i : Nat)

/-- The steps of a cluster of `n` nodes. -/
inductive Step (n : Nat) (s : State) : Label → State → Prop where
  | headCall (hc : s.head.caller = .outside) :
      Step n s .headCall (s.setHead { s.head with caller := .waiting, calls := s.head.calls + 1 })
  /-- A full count ends the loop; a smaller one is read again. -/
  | headSees (hc : s.head.caller = .waiting) (hcount : n - 1 ≤ s.head.barrier_count_) :
      Step n s .headSees (s.setHead { s.head with caller := .sending 1 })
  | headSend {k : Nat} (hc : s.head.caller = .sending k) (hk : k < n) :
      Step n s .headSend ((s.sendLeave k).setHead { s.head with caller := .sending (k + 1) })
  | headReset (hc : s.head.caller = .sending n) :
      Step n s .headReset
        (s.setHead { s.head with barrier_count_ := 0, caller := .outside, returns := s.head.returns + 1 })
  | handleEnter {i : Nat} (hi : 1 ≤ i ∧ i < n) (hidle : s.head.handler = .idle) (henter : 0 < (s.agent i).enter) :
      Step n s (.handleEnter i)
        ((s.setAgent i { s.agent i with enter := (s.agent i).enter - 1 }).setHead
          { s.head with
            barrier_count_ := s.head.barrier_count_ + 1
            handler := if n - 1 ≤ s.head.barrier_count_ + 1 then .sending 1 else .idle })
  | handlerSend {k : Nat} (hh : s.head.handler = .sending k) (hk : k < n) :
      Step n s .handlerSend ((s.sendLeave k).setHead { s.head with handler := .sending (k + 1) })
  | handlerReset (hh : s.head.handler = .sending n) :
      Step n s .handlerReset (s.setHead { s.head with barrier_count_ := 0, handler := .idle })
  | agentCall {i : Nat} (hi : 1 ≤ i ∧ i < n) (hp : (s.agent i).phase = .outside) :
      Step n s (.agentCall i) (s.setAgent i
        { s.agent i with
          global_epoch_ := (s.agent i).global_epoch_ + 1
          phase := .entering (s.agent i).global_epoch_
          calls := (s.agent i).calls + 1 })
  | agentSend {i : Nat} {wait_epoch : UInt64} (hi : 1 ≤ i ∧ i < n) (hp : (s.agent i).phase = .entering wait_epoch) :
      Step n s (.agentSend i) (s.setAgent i
        { s.agent i with phase := .waiting wait_epoch, enter := (s.agent i).enter + 1 })
  | handleLeave {i : Nat} (hi : 1 ≤ i ∧ i < n) (hl : 0 < (s.agent i).leave) :
      Step n s (.handleLeave i) (s.setAgent i
        { s.agent i with global_epoch_ := (s.agent i).global_epoch_ + 1, leave := (s.agent i).leave - 1 })
  /-- The loop ends once the epoch is past `wait_epoch + 1`. -/
  | agentReturn {i : Nat} {wait_epoch : UInt64} (hi : 1 ≤ i ∧ i < n) (hp : (s.agent i).phase = .waiting wait_epoch)
      (he : wait_epoch + 1 < (s.agent i).global_epoch_) :
      Step n s (.agentReturn i) (s.setAgent i
        { s.agent i with phase := .outside, returns := (s.agent i).returns + 1 })

def start : State := ⟨⟨0, .outside, .idle, 0, 0⟩, fun _ => ⟨0, .outside, 0, 0, 0, 0⟩⟩

def barrier (n : Nat) : System State Label := ⟨fun s => s = start, Step n⟩

theorem setAgent_head (s : State) (i : Nat) (a : Agent) : (s.setAgent i a).head = s.head := rfl

theorem setAgent_self (s : State) (i : Nat) (a : Agent) : (s.setAgent i a).agent i = a := Function.update_self ..

theorem setAgent_of_ne (s : State) {i k : Nat} (a : Agent) (h : k ≠ i) : (s.setAgent i a).agent k = s.agent k :=
  Function.update_of_ne h ..

/-! ## Rounds -/

def State.calls (s : State) (i : Nat) : Nat := if i = 0 then s.head.calls else (s.agent i).calls

def State.returns (s : State) (i : Nat) : Nat := if i = 0 then s.head.returns else (s.agent i).returns

/-- No node has returned from a round that some node has not entered. -/
def Safe (n : Nat) (s : State) : Prop := ∀ i < n, ∀ j < n, s.returns i ≤ s.calls j

/-- One of the threads of the head is sending `BARRIER_LEAVE`. -/
def Head.Releasing (h : Head) : Prop := h.handler ≠ .idle ∨ ∃ k, h.caller = .sending k

/-- The `BARRIER_ENTER` that completes a round is handled once the head has called
    `barrier_all` as often as the agents. -/
def HeadFirst (n : Nat) (s : State) : Label → Prop
  | .handleEnter _ => n - 1 ≤ s.head.barrier_count_ + 1 → ∀ j < n, s.calls j ≤ s.head.calls
  | _ => True

/-- An agent enters a round when no release is under way and no `BARRIER_LEAVE` is on
    its way to it. -/
def Settled (s : State) : Label → Prop
  | .agentCall i => ¬s.head.Releasing ∧ (s.agent i).leave = 0
  | _ => True

def Orderly (n : Nat) (s : State) (l : Label) : Prop := HeadFirst n s l ∧ Settled s l

/-! ## The Invariant -/

def Phase.isWaiting : Phase → Bool
  | .waiting _ => true
  | _ => false

/-- An agent while `round` rounds have been released. -/
structure AgentOk (round : Nat) (releasing : Prop) (a : Agent) : Prop where
  calls_ge : round ≤ a.calls
  returns_le : a.returns ≤ round
  calls_eq : a.calls = a.returns + if a.phase = .outside then 0 else 1
  entering : ∀ e, a.phase = .entering e → a.calls = round + 1
  enter_le : a.enter ≤ 1
  enter_pos : 0 < a.enter → a.phase.isWaiting = true ∧ a.calls = round + 1
  /-- An agent in the next round has got no `BARRIER_LEAVE` in it. -/
  undisturbed : a.calls = round + 1 → a.leave = 0 ∧ ¬releasing ∧
    ∀ e, a.phase = .entering e ∨ a.phase = .waiting e → a.global_epoch_ = e + 1

structure HeadOk (n round : Nat) (h : Head) : Prop where
  calls_ge : round ≤ h.calls
  returns_le : h.returns ≤ round
  calls_eq : h.calls = h.returns + if h.caller = .outside then 0 else 1
  sending : ∀ k, h.caller = .sending k → h.calls ≤ round
  /-- The count is full only during a release, and the head is then in the round. -/
  full : n - 1 ≤ h.barrier_count_ → h.caller ≠ .outside ∧ h.calls ≤ round ∧ h.handler ≠ .idle

/-- The `BARRIER_ENTER` of the agent for the next round has been handled. -/
def Agent.Counted (round : Nat) (a : Agent) : Prop :=
  a.phase.isWaiting = true ∧ a.calls = round + 1 ∧ a.enter = 0

instance (round : Nat) (a : Agent) : Decidable (a.Counted round) := inferInstanceAs (Decidable (_ ∧ _))

def counted (n round : Nat) (s : State) : Finset Nat := (Finset.Ico 1 n).filter fun i => (s.agent i).Counted round

structure Inv (n round : Nat) (s : State) : Prop where
  agents : ∀ i, 1 ≤ i → i < n → AgentOk round s.head.Releasing (s.agent i)
  head : HeadOk n round s.head
  count : s.head.handler = .idle → s.head.barrier_count_ ≤ (counted n round s).card

theorem Inv.safe {n round : Nat} {s : State} (h : Inv n round s) : Safe n s := by
  intro i hi j hj
  have hreturns : s.returns i ≤ round := by
    unfold State.returns
    split
    · exact h.head.returns_le
    · exact (h.agents i (by omega) hi).returns_le
  have hcalls : round ≤ s.calls j := by
    unfold State.calls
    split
    · exact h.head.calls_ge
    · exact (h.agents j (by omega) hj).calls_ge
  exact hreturns.trans hcalls

section Steps

variable {n round : Nat} {s : State} {r : Prop} {a : Agent} {i : Nat}

theorem AgentOk.weaken {r' : Prop} (h : AgentOk round r a) (hr : r' → r) : AgentOk round r' a :=
  { h with
    undisturbed := fun hc => by
      obtain ⟨hl, hnot, he⟩ := h.undisturbed hc
      exact ⟨hl, fun h' => hnot (hr h'), he⟩ }

theorem AgentOk.calls_le (h : AgentOk round r a) : a.calls ≤ round + 1 := by
  have heq := h.calls_eq
  have hle := h.returns_le
  split at heq <;> omega

theorem AgentOk.calls_of_releasing (h : AgentOk round r a) (hr : r) : a.calls = round := by
  have hge := h.calls_ge
  have hle := h.calls_le
  have hne : a.calls ≠ round + 1 := fun hc => (h.undisturbed hc).2.1 hr
  omega

/-- A further `BARRIER_LEAVE` during a release. -/
theorem AgentOk.leave (h : AgentOk round r a) (hr : r) :
    AgentOk round r { a with leave := a.leave + 1 } :=
  { h with
    undisturbed := fun hc => by
      have heq := h.calls_of_releasing hr
      dsimp only at hc
      omega }

/-- What holds of the new agent and of the others holds of all of them. -/
theorem setAgent_agents {P : Agent → Prop} (ha : 1 ≤ i → i < n → P a)
    (h : ∀ k, 1 ≤ k → k < n → P (s.agent k)) : ∀ k, 1 ≤ k → k < n → P ((s.setAgent i a).agent k) := by
  intro k h1 hn
  by_cases hk : k = i
  · subst hk
    rw [setAgent_self]
    exact ha h1 hn
  · rw [setAgent_of_ne s a hk]
    exact h k h1 hn

/-- The agents that have been counted stay so if the one that changes does. -/
theorem counted_setAgent (h : (s.agent i).Counted round → a.Counted round) :
    counted n round s ⊆ counted n round (s.setAgent i a) := by
  intro k hk
  simp only [counted, Finset.mem_filter] at hk ⊢
  refine ⟨hk.1, ?_⟩
  by_cases hki : k = i
  · subst hki
    rw [setAgent_self]
    exact h hk.2
  · rw [setAgent_of_ne s a hki]
    exact hk.2

/-- A step of an agent that leaves the head alone. -/
theorem Inv.setAgent (h : Inv n round s)
    (ha : 1 ≤ i → i < n → AgentOk round s.head.Releasing a) (hc : (s.agent i).Counted round → a.Counted round) :
    Inv n round (s.setAgent i a) where
  agents := setAgent_agents ha h.agents
  head := h.head
  count hidle := (h.count hidle).trans (Finset.card_le_card (counted_setAgent hc))

theorem Inv.sendLeave (h : Inv n round s) (hr : s.head.Releasing) (k : Nat) : Inv n round (s.sendLeave k) :=
  h.setAgent (fun h1 hn => (h.agents k h1 hn).leave hr) fun hc => hc

/-- A step of the head that starts no release and lowers the count at most. -/
theorem Inv.setHead {hd : Head} (h : Inv n round s) (hr : hd.Releasing → s.head.Releasing) (hok : HeadOk n round hd)
    (hcount : hd.handler = .idle → hd.barrier_count_ ≤ (counted n round s).card) : Inv n round (s.setHead hd) where
  agents i h1 hn := (h.agents i h1 hn).weaken hr
  head := hok
  count := hcount

theorem Inv.headCall (h : Inv n round s) (hc : s.head.caller = .outside) :
    Inv n round (s.setHead { s.head with caller := .waiting, calls := s.head.calls + 1 }) := by
  have heq := h.head.calls_eq
  rw [if_pos hc] at heq
  refine h.setHead ?_ ⟨Nat.le_succ_of_le h.head.calls_ge, h.head.returns_le, ?_, ?_, ?_⟩ h.count
  · rintro (hh | ⟨k, ⟨⟩⟩)
    exact .inl hh
  · simp [heq]
  · rintro k ⟨⟩
  · -- a full count finds the head inside, so it could not call
    intro hfull
    exact absurd hc (h.head.full hfull).1

theorem Inv.headSees (h : Inv n round s) (hc : s.head.caller = .waiting) (hcount : n - 1 ≤ s.head.barrier_count_) :
    Inv n round (s.setHead { s.head with caller := .sending 1 }) := by
  obtain ⟨-, hcalls, hbusy⟩ := h.head.full hcount
  have heq := h.head.calls_eq
  refine h.setHead (fun _ => .inl hbusy) ⟨h.head.calls_ge, h.head.returns_le, ?_, fun _ _ => hcalls, ?_⟩ h.count
  · simpa [hc] using heq
  · intro _
    exact ⟨by simp, hcalls, hbusy⟩

theorem Inv.headSend {k : Nat} (h : Inv n round s) (hc : s.head.caller = .sending k) :
    Inv n round ((s.sendLeave k).setHead { s.head with caller := .sending (k + 1) }) := by
  have hr : s.head.Releasing := .inr ⟨k, hc⟩
  have heq := h.head.calls_eq
  have hcalls := h.head.sending k hc
  have hleave := h.sendLeave hr k
  refine hleave.setHead (fun _ => hr) ⟨h.head.calls_ge, h.head.returns_le, ?_, fun _ _ => hcalls, ?_⟩ hleave.count
  · simpa [hc] using heq
  · intro hfull
    exact ⟨by simp, (h.head.full hfull).2⟩

theorem Inv.headReset (hn : 2 ≤ n) (h : Inv n round s) (hc : s.head.caller = .sending n) :
    Inv n round (s.setHead { s.head with barrier_count_ := 0, caller := .outside, returns := s.head.returns + 1 }) := by
  have heq := h.head.calls_eq
  rw [if_neg (by simp [hc])] at heq
  have hcalls := h.head.sending n hc
  refine h.setHead ?_ ⟨h.head.calls_ge, heq ▸ hcalls, ?_, ?_, ?_⟩ fun _ => Nat.zero_le _
  · rintro (hh | ⟨k, ⟨⟩⟩)
    exact .inl hh
  · simpa using heq
  · rintro k ⟨⟩
  · -- with an agent in the cluster, zero is not a full count
    intro hfull
    dsimp only at hfull
    omega

theorem Inv.handlerSend {k : Nat} (h : Inv n round s) (hh : s.head.handler = .sending k) :
    Inv n round ((s.sendLeave k).setHead { s.head with handler := .sending (k + 1) }) := by
  have hr : s.head.Releasing := .inl (by simp [hh])
  refine (h.sendLeave hr k).setHead (fun _ => hr) ⟨h.head.calls_ge, h.head.returns_le, h.head.calls_eq,
    h.head.sending, ?_⟩ (fun hidle => by cases hidle)
  intro hfull
  obtain ⟨hin, hcalls, -⟩ := h.head.full hfull
  exact ⟨hin, hcalls, by simp⟩

theorem Inv.handlerReset (hn : 2 ≤ n) (h : Inv n round s) :
    Inv n round (s.setHead { s.head with barrier_count_ := 0, handler := .idle }) := by
  refine h.setHead ?_ ⟨h.head.calls_ge, h.head.returns_le, h.head.calls_eq, h.head.sending, ?_⟩ fun _ => Nat.zero_le _
  · rintro (hh | hk)
    · exact absurd rfl hh
    · exact .inr hk
  · intro hfull
    dsimp only at hfull
    omega

/-! ### Agents -/

theorem Inv.agentCall (h : Inv n round s) (hp : (s.agent i).phase = .outside) (hr : ¬s.head.Releasing)
    (hl : (s.agent i).leave = 0) :
    Inv n round (s.setAgent i
      { s.agent i with
        global_epoch_ := (s.agent i).global_epoch_ + 1
        phase := .entering (s.agent i).global_epoch_
        calls := (s.agent i).calls + 1 }) := by
  refine h.setAgent (fun h1 hn => ?_) fun hc => ?_
  · have ha := h.agents i h1 hn
    have heq := ha.calls_eq
    rw [if_pos hp] at heq
    -- an agent outside is in no round after the last one released
    have hround : (s.agent i).calls = round := le_antisymm (heq ▸ ha.returns_le) ha.calls_ge
    have henter : (s.agent i).enter = 0 := by
      by_contra hne
      have hw := (ha.enter_pos (Nat.pos_of_ne_zero hne)).1
      rw [hp] at hw
      cases hw
    refine ⟨Nat.le_succ_of_le ha.calls_ge, ha.returns_le, ?_, fun _ _ => ?_, ha.enter_le, ?_, fun _ => ⟨hl, hr, ?_⟩⟩
    · simpa using heq
    · simp [hround]
    · intro hpos
      dsimp only at hpos
      omega
    · rintro e (⟨⟨⟩⟩ | ⟨⟨⟩⟩)
      rfl
  · obtain ⟨hw, -⟩ := hc
    rw [hp] at hw
    cases hw

theorem Inv.agentSend {e : UInt64} (h : Inv n round s) (hp : (s.agent i).phase = .entering e) :
    Inv n round (s.setAgent i { s.agent i with phase := .waiting e, enter := (s.agent i).enter + 1 }) := by
  refine h.setAgent (fun h1 hn => ?_) fun hc => ?_
  · have ha := h.agents i h1 hn
    have hcalls := ha.entering e hp
    have henter : (s.agent i).enter = 0 := by
      by_contra hne
      have hw := (ha.enter_pos (Nat.pos_of_ne_zero hne)).1
      rw [hp] at hw
      cases hw
    have heq := ha.calls_eq
    obtain ⟨hl, hr, hepoch⟩ := ha.undisturbed hcalls
    refine ⟨ha.calls_ge, ha.returns_le, ?_, ?_, ?_, fun _ => ⟨rfl, hcalls⟩, fun _ => ⟨hl, hr, ?_⟩⟩
    · simpa [hp] using heq
    · rintro e' ⟨⟩
    · simp [henter]
    · rintro e' (⟨⟨⟩⟩ | ⟨⟨⟩⟩)
      exact hepoch e (.inl hp)
  · obtain ⟨hw, -⟩ := hc
    rw [hp] at hw
    cases hw

theorem Inv.handleLeave (h : Inv n round s) (hl : 0 < (s.agent i).leave) :
    Inv n round (s.setAgent i
      { s.agent i with global_epoch_ := (s.agent i).global_epoch_ + 1, leave := (s.agent i).leave - 1 }) := by
  refine h.setAgent (fun h1 hn => ?_) fun hc => hc
  have ha := h.agents i h1 hn
  -- the message belongs to a round that has been released
  have hne : (s.agent i).calls ≠ round + 1 := fun hc => by
    have hzero := (ha.undisturbed hc).1
    omega
  exact { ha with undisturbed := fun hc => absurd hc hne }

theorem Inv.agentReturn {e : UInt64} (h : Inv n round s) (hi : 1 ≤ i ∧ i < n)
    (hp : (s.agent i).phase = .waiting e) (he : e + 1 < (s.agent i).global_epoch_) :
    Inv n round (s.setAgent i { s.agent i with phase := .outside, returns := (s.agent i).returns + 1 }) := by
  have ha := h.agents i hi.1 hi.2
  -- in the next round the epoch would still be the one the agent waits to see passed
  have hne : (s.agent i).calls ≠ round + 1 := fun hc => by
    have hepoch := (ha.undisturbed hc).2.2 e (.inr hp)
    rw [hepoch] at he
    exact absurd he (UInt64.lt_irrefl _)
  have heq := ha.calls_eq
  rw [if_neg (by simp [hp])] at heq
  have hle := ha.calls_le
  refine h.setAgent (fun _ _ => ?_) fun hc => absurd hc.2.1 hne
  refine ⟨ha.calls_ge, ?_, ?_, ?_, ha.enter_le, ?_, fun hc => absurd hc hne⟩
  · dsimp only
    omega
  · simpa using heq
  · rintro e' ⟨⟩
  · intro hpos
    exact absurd (ha.enter_pos hpos).2 hne

/-! ### The count -/

/-- The `BARRIER_ENTER` of an agent that has not been counted. -/
theorem Inv.counted_lt (h : Inv n round s) (hi : 1 ≤ i ∧ i < n) (henter : 0 < (s.agent i).enter) :
    (counted n round s).card <
      (counted n round (s.setAgent i { s.agent i with enter := (s.agent i).enter - 1 })).card := by
  have ha := h.agents i hi.1 hi.2
  have hle := ha.enter_le
  obtain ⟨hw, hcalls⟩ := ha.enter_pos henter
  -- its message was still on the way
  have hnot : i ∉ counted n round s := fun hmem => by
    have hzero := (Finset.mem_filter.mp hmem).2.2.2
    omega
  refine Finset.card_lt_card (Finset.ssubset_iff.mpr ⟨i, hnot, ?_⟩)
  refine Finset.insert_subset ?_ (counted_setAgent fun hc => ?_)
  · refine Finset.mem_filter.mpr ⟨Finset.mem_Ico.mpr hi, ?_⟩
    rw [setAgent_self]
    exact ⟨hw, hcalls, by dsimp only; omega⟩
  · have hzero := hc.2.2
    omega

theorem Inv.takeEnter (h : Inv n round s) (hi : 1 ≤ i ∧ i < n) (henter : 0 < (s.agent i).enter) :
    Inv n round (s.setAgent i { s.agent i with enter := (s.agent i).enter - 1 }) := by
  have ha := h.agents i hi.1 hi.2
  refine h.setAgent (fun _ _ => ?_) fun hc => ?_
  · refine { ha with enter_le := ?_, enter_pos := fun _ => ha.enter_pos henter }
    have hle := ha.enter_le
    dsimp only
    omega
  · have hzero := hc.2.2
    omega

/-- A full count means that every agent has entered the next round. -/
theorem counted_of_full (hfull : n - 1 ≤ (counted n round s).card) (i : Nat) (h1 : 1 ≤ i) (hn : i < n) :
    (s.agent i).Counted round := by
  have hall : counted n round s = Finset.Ico 1 n := by
    refine Finset.eq_of_subset_of_card_le (Finset.filter_subset _ _) ?_
    rw [Nat.card_Ico]
    exact hfull
  have hmem : i ∈ counted n round s := by
    rw [hall]
    exact Finset.mem_Ico.mpr ⟨h1, hn⟩
  exact (Finset.mem_filter.mp hmem).2

/-- The next round is released: all agents are in it, and the head must be as well. -/
theorem Inv.release {hd : Head} (hn : 2 ≤ n) (h : Inv n round s) (hfull : n - 1 ≤ (counted n round s).card)
    (hcalls : ∀ j < n, s.calls j ≤ s.head.calls)
    (hhd : hd = { s.head with barrier_count_ := hd.barrier_count_, handler := .sending 1 }) :
    Inv n (round + 1) (s.setHead hd) := by
  have hcounted := counted_of_full hfull
  -- there is an agent, so the head has called at least as often
  have hhead : round + 1 ≤ s.head.calls := by
    have hone := hcalls 1 (by omega)
    have hagent := (hcounted 1 le_rfl (by omega)).2.1
    simp only [State.calls] at hone
    rw [if_neg (by decide), hagent] at hone
    exact hone
  have hin : s.head.caller ≠ .outside := fun hc => by
    have heq := h.head.calls_eq
    have hle := h.head.returns_le
    rw [if_pos hc] at heq
    omega
  have hle : s.head.calls ≤ round + 1 := by
    have heq := h.head.calls_eq
    have hle := h.head.returns_le
    rw [if_neg hin] at heq
    omega
  rw [hhd]
  refine ⟨fun i h1 hi => ?_, ⟨hhead, Nat.le_succ_of_le h.head.returns_le, h.head.calls_eq, fun _ _ => hle,
    fun _ => ⟨hin, hle, by simp [State.setHead]⟩⟩, fun hidle => by cases hidle⟩
  obtain ⟨hw, hc, he⟩ := hcounted i h1 hi
  have ha := h.agents i h1 hi
  refine ⟨hc.ge, Nat.le_succ_of_le ha.returns_le, ha.calls_eq, fun e hp => ?_, ha.enter_le, fun hpos => ?_,
    fun hnext => ?_⟩
  · rw [show (s.agent i).phase = .entering e from hp] at hw
    cases hw
  · exact absurd (he ▸ hpos) (Nat.lt_irrefl 0)
  · exact absurd (hc.symm.trans hnext) (by omega)

theorem calls_takeEnter (s : State) (i j : Nat) :
    (s.setAgent i { s.agent i with enter := (s.agent i).enter - 1 }).calls j = s.calls j := by
  unfold State.calls
  by_cases hj : j = i
  · subst hj
    rw [setAgent_self, setAgent_head]
  · rw [setAgent_of_ne s _ hj, setAgent_head]

theorem Inv.handleEnter (hn : 2 ≤ n) (h : Inv n round s) (hi : 1 ≤ i ∧ i < n)
    (hidle : s.head.handler = .idle) (henter : 0 < (s.agent i).enter) (hok : HeadFirst n s (.handleEnter i)) :
    ∃ round', Inv n round' ((s.setAgent i { s.agent i with enter := (s.agent i).enter - 1 }).setHead
      { s.head with
        barrier_count_ := s.head.barrier_count_ + 1
        handler := if n - 1 ≤ s.head.barrier_count_ + 1 then .sending 1 else .idle }) := by
  have htaken := h.takeEnter hi henter
  have hcount := (Nat.succ_le_succ (h.count hidle)).trans (Nat.succ_le_of_lt (h.counted_lt hi henter))
  -- a full count releases the round, and the invariant moves on to the next one
  by_cases hfull : n - 1 ≤ s.head.barrier_count_ + 1
  · rw [if_pos hfull]
    refine ⟨round + 1, htaken.release hn (hfull.trans hcount) (fun j hj => ?_) rfl⟩
    rw [calls_takeEnter]
    exact hok hfull j hj
  · rw [if_neg hfull]
    refine ⟨round, htaken.setHead ?_ ⟨h.head.calls_ge, h.head.returns_le, h.head.calls_eq, h.head.sending, ?_⟩
      fun _ => hcount⟩
    · rintro (hh | hk)
      · exact absurd rfl hh
      · exact .inr hk
    · intro h'
      exact absurd h' hfull

theorem Inv.step {l : Label} {s' : State} (hn : 2 ≤ n) (h : Inv n round s) (hok : Orderly n s l)
    (hs : Step n s l s') : ∃ round', Inv n round' s' := by
  cases hs with
  | headCall hc => exact ⟨round, h.headCall hc⟩
  | headSees hc hcount => exact ⟨round, h.headSees hc hcount⟩
  | headSend hc hk => exact ⟨round, h.headSend hc⟩
  | headReset hc => exact ⟨round, h.headReset hn hc⟩
  | handleEnter hi hidle henter => exact h.handleEnter hn hi hidle henter hok.1
  | handlerSend hh hk => exact ⟨round, h.handlerSend hh⟩
  | handlerReset hh => exact ⟨round, h.handlerReset hn⟩
  | agentCall hi hp => exact ⟨round, h.agentCall hp hok.2.1 hok.2.2⟩
  | agentSend hi hp => exact ⟨round, h.agentSend hp⟩
  | handleLeave hi hl => exact ⟨round, h.handleLeave hl⟩
  | agentReturn hi hp he => exact ⟨round, h.agentReturn hi hp he⟩

end Steps

theorem inv_start {n : Nat} (hn : 2 ≤ n) : Inv n 0 start := by
  refine ⟨fun i _ _ => ?_, ?_, fun _ => Nat.zero_le _⟩
  · constructor <;> simp [start]
  · refine ⟨le_rfl, le_rfl, rfl, ?_, ?_⟩
    · rintro k ⟨⟩
    · intro hfull
      simp only [start] at hfull
      omega

/-- **Barrier safety**: in every orderly run no node returns from its `k`-th
    `barrier_all` before every node has called its `k`-th. -/
theorem barrier_all_safe {n : Nat} (hn : 2 ≤ n) {s : State} (h : (barrier n).Reach (Orderly n) s) : Safe n s := by
  -- the number of rounds released is not part of the state
  have hinv : ∃ round, Inv n round s := by
    refine h.invariant (I := fun s => ∃ round, Inv n round s) ?_ ?_
    · rintro s rfl
      exact ⟨0, inv_start hn⟩
    · rintro s l s' ⟨round, hr⟩ hok hs
      exact hr.step hn hok hs
  obtain ⟨round, hr⟩ := hinv
  exact hr.safe

/-- A round of two nodes: the head calls first, sees the full count and releases the
    agent a second time. Both return. -/
theorem barrier_all_safe_round : ∃ s, (barrier 2).Reach (Orderly 2) s ∧ s.returns 0 = 1 ∧ s.returns 1 = 1 ∧ Safe 2 s := by
  have hinit : (barrier 2).Reach (Orderly 2) _ := .init rfl
  have h1 := hinit.next (.headCall rfl) ⟨trivial, trivial⟩
  have hsettled : ¬Head.Releasing ⟨0, .waiting, .idle, 1, 0⟩ := by simp [Head.Releasing]
  have h2 := h1.next (.agentCall (i := 1) (by decide) rfl) ⟨trivial, hsettled, rfl⟩
  have h3 := h2.next (.agentSend (i := 1) (by decide) rfl) ⟨trivial, trivial⟩
  have h4 := h3.next (.handleEnter (i := 1) (by decide) rfl (by decide)) ⟨fun _ => by decide, trivial⟩
  have h5 := h4.next (.headSees rfl (by decide)) ⟨trivial, trivial⟩
  have h6 := h5.next (.handlerSend rfl (by decide)) ⟨trivial, trivial⟩
  have h7 := h6.next (.headSend rfl (by decide)) ⟨trivial, trivial⟩
  have h8 := h7.next (.headReset rfl) ⟨trivial, trivial⟩
  have h9 := h8.next (.handlerReset rfl) ⟨trivial, trivial⟩
  have h10 := h9.next (.handleLeave (i := 1) (by decide) (by decide)) ⟨trivial, trivial⟩
  have h11 := h10.next (.agentReturn (i := 1) (by decide) rfl (by decide)) ⟨trivial, trivial⟩
  exact ⟨_, h11, rfl, rfl, barrier_all_safe (by decide) h11⟩

/-- Neither condition is enough. The handler of the head releases an agent although
    the head has not called `barrier_all`; and where the head was first, its second
    `BARRIER_LEAVE` ends the next round of the agent. -/
theorem agent_returns_alone :
    (∃ s, (barrier 2).Reach Settled s ∧ s.returns 1 = 1 ∧ s.calls 0 = 0 ∧ ¬Safe 2 s) ∧
    ∃ s, (barrier 2).Reach (HeadFirst 2) s ∧ s.returns 1 = 2 ∧ s.calls 0 = 1 ∧ ¬Safe 2 s := by
  constructor
  · have hinit : (barrier 2).Reach Settled _ := .init rfl
    have hsettled : ¬Head.Releasing ⟨0, .outside, .idle, 0, 0⟩ := by simp [Head.Releasing]
    have h1 := hinit.next (.agentCall (i := 1) (by decide) rfl) ⟨hsettled, rfl⟩
    have h2 := h1.next (.agentSend (i := 1) (by decide) rfl)
    have h3 := h2.next (.handleEnter (i := 1) (by decide) rfl (by decide))
    have h4 := h3.next (.handlerSend rfl (by decide))
    have h5 := h4.next (.handleLeave (i := 1) (by decide) (by decide))
    have h6 := h5.next (.agentReturn (i := 1) (by decide) rfl (by decide))
    exact ⟨_, h6, rfl, rfl, fun hsafe => absurd (hsafe 1 (by decide) 0 (by decide)) (by decide)⟩
  · have hinit : (barrier 2).Reach (HeadFirst 2) _ := .init rfl
    have h1 := hinit.next (.headCall rfl)
    have h2 := h1.next (.agentCall (i := 1) (by decide) rfl)
    have h3 := h2.next (.agentSend (i := 1) (by decide) rfl)
    have h4 := h3.next (.handleEnter (i := 1) (by decide) rfl (by decide)) (fun _ => by decide)
    have h5 := h4.next (.headSees rfl (by decide))
    have h6 := h5.next (.handlerSend rfl (by decide))
    have h7 := h6.next (.headSend rfl (by decide))
    have h8 := h7.next (.handleLeave (i := 1) (by decide) (by decide))
    have h9 := h8.next (.agentReturn (i := 1) (by decide) rfl (by decide))
    have h10 := h9.next (.agentCall (i := 1) (by decide) rfl)
    have h11 := h10.next (.agentSend (i := 1) (by decide) rfl)
    have h12 := h11.next (.handleLeave (i := 1) (by decide) (by decide))
    have h13 := h12.next (.agentReturn (i := 1) (by decide) rfl (by decide))
    exact ⟨_, h13, rfl, rfl, fun hsafe => absurd (hsafe 1 (by decide) 0 (by decide)) (by decide)⟩

end Mccl.Coherence.Barrier
