import Mccl.Runtime.ClusterManager

/-! # The Membership Lock

    Model of the membership handlers of `ClusterManager` (`runtime/ClusterManager.cpp`)
    as threads that lock and unlock `state_mu_`. `handle_leave` calls
    `handle_node_failure` with the mutex locked if the node that left leads after the
    election, and then waits for the mutex that it holds.

    * `locks_exact`: a call of `handle_leave` can get there exactly if this node
      leaves as the last one, or an election outside the lock, after a failure, is
      about to make the node the leader. -/

namespace Mccl

open ClusterState

/-- Where a thread is in the handlers. -/
inductive HandlerPc where
  | idle
  /-- `handle_join`, before the election. -/
  | joining
  /-- `handle_leave`, before the election. -/
  | leaving (n : NodeId)
  /-- `handle_leave`, before the test whether the node leads. -/
  | left (n : NodeId)
  /-- `handle_node_failure`, called by `handle_leave`. -/
  | relocking (n : NodeId)
  /-- `handle_node_failure`, after its first section. -/
  | failing (n : NodeId)
  /-- `handle_node_failure`, before `is_leader`. -/
  | asking
  /-- `elect_leader` without the lock, before it reads `nodes[k]`. -/
  | scanning (k : Nat)
  /-- `elect_leader` without the lock, before it writes `leader_id`. -/
  | writing (l : NodeId)

namespace HandlerPc

/-- The thread has `state_mu_` locked. -/
def holds : HandlerPc → Bool
  | joining => true
  | leaving _ => true
  | left _ => true
  | relocking _ => true
  | _ => false

/-- The node whose leave the thread handles. -/
def leaves : HandlerPc → Option NodeId
  | leaving n => some n
  | left n => some n
  | _ => none

end HandlerPc

/-- `ι` names the threads. -/
structure Membership (ι : Type) where
  manager : ClusterManager
  /-- The thread that has locked `state_mu_`. -/
  owner : Option ι := none
  pc : ι → HandlerPc := fun _ => .idle

inductive MembershipCall where
  | join (info : NodeInfo) (now_us : UInt64)
  | leave (node_id : NodeId)
  | heartbeat (info : NodeInfo) (now_us : UInt64)
  | failure (node_id : NodeId)
  /-- The call goes on. -/
  | next

namespace Membership

variable {ι : Type} [DecidableEq ι]

def status (s : Membership ι) (n : NodeId) : NodeStatus := (s.manager.state_.nodes n).status

/-- A step of thread `i`. -/
def put (s : Membership ι) (i : ι) (manager : ClusterManager) (owner : Option ι) (pc : HandlerPc) : Membership ι :=
  ⟨manager, owner, Function.update s.pc i pc⟩

/-- Thread `i` starts a call and gets the lock. -/
def Enters (s : Membership ι) (i : ι) : Prop := s.pc i = .idle ∧ s.owner = none

/-- `handle_join` up to the election. -/
def online (m : ClusterManager) (info : NodeInfo) (now_us : UInt64) : ClusterManager :=
  let entry := { info with status := .ONLINE, last_heartbeat_us := now_us }
  { m with state_ := (m.state_.setNode info.node_id entry).bump 1 }

/-- `nodes[n].status = OFFLINE; online_count--; version++`. -/
def offline (m : ClusterManager) (n : NodeId) : ClusterManager :=
  { m with state_ := (m.state_.setNode n { m.state_.nodes n with status := .OFFLINE }).bump (-1) }

/-- `elect_leader()` with the lock. -/
def elect (m : ClusterManager) : ClusterManager := { m with state_ := elect_leader m.node_id_ m.state_ }

/-- `scheduler_->evict_node(n)`. -/
def evict (m : ClusterManager) (n : NodeId) (now_us : UInt64 → UInt64) : ClusterManager :=
  { m with scheduler_ := m.scheduler_.evict_node (UInt16.ofNat n.val) now_us }

/-- `leader_id = l`. -/
def lead (m : ClusterManager) (l : NodeId) : ClusterManager :=
  { m with state_ := { m.state_ with leader_id := l } }

inductive Step : Membership ι → ι × MembershipCall → Membership ι → Prop where
  | join {s : Membership ι} {i : ι} (h : s.Enters i) (info : NodeInfo) (now_us : UInt64) :
      Step s (i, .join info now_us)
        (s.put i (online s.manager info now_us) (some i) .joining)
  | joined {s : Membership ι} {i : ι} (h : s.pc i = .joining) :
      Step s (i, .next) (s.put i (elect s.manager) none .idle)
  | leave_offline {s : Membership ι} {i : ι} (h : s.Enters i) {n : NodeId} (hn : s.status n = .OFFLINE) :
      Step s (i, .leave n) s
  | leave {s : Membership ι} {i : ι} (h : s.Enters i) {n : NodeId} (hn : s.status n ≠ .OFFLINE) :
      Step s (i, .leave n) (s.put i (offline s.manager n) (some i) (.leaving n))
  | elect {s : Membership ι} {i : ι} {n : NodeId} (h : s.pc i = .leaving n) :
      Step s (i, .next) (s.put i (elect s.manager) s.owner (.left n))
  | leads {s : Membership ι} {i : ι} {n : NodeId} (h : s.pc i = .left n) (hn : n = s.manager.state_.leader_id) :
      Step s (i, .next) (s.put i s.manager s.owner (.relocking n))
  | follows {s : Membership ι} {i : ι} {n : NodeId} (h : s.pc i = .left n) (hn : n ≠ s.manager.state_.leader_id) :
      Step s (i, .next) (s.put i s.manager none .idle)
  | heartbeat {s : Membership ι} {i : ι} (h : s.Enters i) (info : NodeInfo) (now_us : UInt64) :
      Step s (i, .heartbeat info now_us) (s.put i (s.manager.handle_heartbeat info now_us) none .idle)
  | failure {s : Membership ι} {i : ι} (h : s.Enters i) (n : NodeId) :
      Step s (i, .failure n) (s.put i (offline s.manager n) none (.failing n))
  | evict {s : Membership ι} {i : ι} {n : NodeId} (h : s.pc i = .failing n) (now_us : UInt64 → UInt64) :
      Step s (i, .next)
        (s.put i (evict s.manager n now_us) s.owner .asking)
  | elects {s : Membership ι} {i : ι} (h : s.pc i = .asking) (hfree : s.owner = none)
      (hleads : s.manager.state_.leader_id = s.manager.node_id_) :
      Step s (i, .next) (s.put i s.manager none (.scanning 0))
  | handled {s : Membership ι} {i : ι} (h : s.pc i = .asking) (hfree : s.owner = none)
      (hleads : s.manager.state_.leader_id ≠ s.manager.node_id_) :
      Step s (i, .next) (s.put i s.manager none .idle)
  | found {s : Membership ι} {i : ι} {k : NodeId} (h : s.pc i = .scanning k.val) (hk : s.status k = .ONLINE) :
      Step s (i, .next) (s.put i s.manager s.owner (.writing k))
  | skipped {s : Membership ι} {i : ι} {k : NodeId} (h : s.pc i = .scanning k.val) (hk : s.status k ≠ .ONLINE) :
      Step s (i, .next) (s.put i s.manager s.owner (.scanning (k.val + 1)))
  /-- Nobody is online: the fallback. -/
  | scanned {s : Membership ι} {i : ι} {k : Nat} (h : s.pc i = .scanning k) (hk : MAX_CLUSTER_NODES ≤ k) :
      Step s (i, .next) (s.put i s.manager s.owner (.writing s.manager.node_id_))
  | write {s : Membership ι} {i : ι} {l : NodeId} (h : s.pc i = .writing l) :
      Step s (i, .next)
        (s.put i (lead s.manager l) s.owner .idle)

def system (ι : Type) [DecidableEq ι] (me : NodeId) (memory_per_node : UInt64) :
    System (Membership ι) (ι × MembershipCall) :=
  ⟨fun s => s = { manager := .new me memory_per_node }, Step⟩

variable {s s' : Membership ι} {i j : ι} {n : NodeId} {me : NodeId} {memory_per_node : UInt64}

@[simp] theorem put_pc_self (s : Membership ι) (i : ι) (manager : ClusterManager) (owner : Option ι) (pc : HandlerPc) :
    (s.put i manager owner pc).pc i = pc := Function.update_self ..

theorem put_pc_of_ne (manager : ClusterManager) (owner : Option ι) (pc : HandlerPc) (h : j ≠ i) :
    (s.put i manager owner pc).pc j = s.pc j := Function.update_of_ne h ..

/-! ## One Thread -/

theorem put_put (s : Membership ι) (i : ι) (manager manager' : ClusterManager) (owner owner' : Option ι)
    (pc pc' : HandlerPc) : (s.put i manager owner pc).put i manager' owner' pc' = s.put i manager' owner' pc' := by
  unfold put
  rw [Function.update_idem]

/-- An election that starts at `k` finds `l`. -/
def Finds (s : Membership ι) (k : Nat) (l : NodeId) : Prop :=
  (k ≤ l.val ∧ s.status l = .ONLINE ∧ ∀ m : NodeId, k ≤ m.val → m < l → s.status m ≠ .ONLINE) ∨
    (l = s.manager.node_id_ ∧ ∀ m : NodeId, k ≤ m.val → s.status m ≠ .ONLINE)

theorem write_after {l : NodeId} (h : Step s (i, .next) (s.put i s.manager s.owner (.writing l))) :
    (system ι me memory_per_node).Leads (· = s.put i (lead s.manager l) s.owner .idle) s :=
  .step h (.step (Step.write (put_pc_self ..)) (.here (put_put ..)))

/-- An election without the lock, if the nodes stay as they are. -/
theorem scan_alone {k : Nat} {l : NodeId} (hpc : s.pc i = .scanning k) (hfinds : s.Finds k l) :
    (system ι me memory_per_node).Leads (· = s.put i (lead s.manager l) s.owner .idle) s := by
  -- on the number of entries that are still to be read
  induction hd : MAX_CLUSTER_NODES - k generalizing s k with
  | zero =>
    have hnone : l = s.manager.node_id_ := by
      rcases hfinds with ⟨hle, -, -⟩ | ⟨hself, -⟩
      · omega
      · exact hself
    subst hnone
    exact write_after (Step.scanned hpc (by omega))
  | succ d ih =>
    obtain ⟨m, rfl⟩ : ∃ m : NodeId, m.val = k := ⟨⟨k, by omega⟩, rfl⟩
    by_cases hm : s.status m = .ONLINE
    · have hl : l = m := by
        rcases hfinds with ⟨hle, -, hbefore⟩ | ⟨-, hnone⟩
        · rcases Nat.lt_or_eq_of_le hle with hlt | heq
          · exact absurd hm (hbefore m (Nat.le_refl _) hlt)
          · exact Fin.ext heq.symm
        · exact absurd hm (hnone m (Nat.le_refl _))
      subst hl
      exact write_after (Step.found hpc hm)
    · have hfinds' : (s.put i s.manager s.owner (.scanning (m.val + 1))).Finds (m.val + 1) l := by
        rcases hfinds with ⟨hle, hon, hbefore⟩ | ⟨hself, hnone⟩
        · have hne : m.val ≠ l.val := by
            intro heq
            rw [Fin.ext heq] at hm
            exact hm hon
          exact .inl ⟨by omega, hon, fun k hk => hbefore k (by omega)⟩
        · exact .inr ⟨hself, fun k hk => hnone k (by omega)⟩
      have hrun := ih (put_pc_self ..) hfinds' (by omega)
      rw [put_put] at hrun
      exact .step (Step.skipped hpc hm) hrun

omit [DecidableEq ι] in
/-- The election with the lock is one that starts at 0. -/
theorem finds_elect (s : Membership ι) : s.Finds 0 (elect s.manager).state_.leader_id := by
  by_cases hnone : ∀ m, s.status m ≠ .ONLINE
  · refine .inr ⟨?_, fun m _ => hnone m⟩
    have hfind : (List.finRange MAX_CLUSTER_NODES).find? (fun i => (s.manager.state_.nodes i).status = .ONLINE) = none :=
      List.find?_eq_none.mpr fun m _ hm => hnone m (of_decide_eq_true hm)
    unfold elect elect_leader
    simp only [hfind]
  · obtain ⟨m, hm⟩ := not_forall_not.mp hnone
    have hlowest : ∀ k, s.status k = .ONLINE →
        s.status (elect s.manager).state_.leader_id = .ONLINE ∧ (elect s.manager).state_.leader_id ≤ k := by
      intro k hk
      have hk' := ClusterManager.lowest_elect_leader s.manager.node_id_ s.manager.state_ k
      rw [ClusterManager.nodes_elect_leader] at hk'
      exact hk' hk
    refine .inl ⟨Nat.zero_le _, (hlowest m hm).1, fun k _ hlt hk => ?_⟩
    exact absurd (hlowest k hk).2 (not_le.mpr hlt)

/-! ## The Lock -/

/-- An election that starts at `k` falls back to `n`, once `n` is offline. -/
def Falls (s : Membership ι) (n : NodeId) (k : Nat) : Prop :=
  n = s.manager.node_id_ ∧ ∀ m : NodeId, k ≤ m.val → m ≠ n → s.status m ≠ .ONLINE

/-- A thread is going to make `n` the leader, although `n` is offline. -/
def Aims (s : Membership ι) (n : NodeId) : HandlerPc → Prop
  | .leaving _ => s.Falls n 0
  | .scanning k => s.Falls n k
  | .writing l => l = n
  | _ => False

/-- The calls of `handle_leave` that are safe: the node is offline anyway, or it will
    not lead, neither by the election of the call nor by one outside the lock. -/
def Safe (s : Membership ι) : ι × MembershipCall → Prop
  | (_, .leave n) => s.status n = .OFFLINE ∨ ¬s.Falls n 0 ∧ ∀ j, ¬s.Aims n (s.pc j)
  | _ => True

/-- Node `n` is offline, and nobody makes it the leader. -/
def Calm (s : Membership ι) (n : NodeId) : Prop := s.status n = .OFFLINE ∧ ∀ j, ¬s.Aims n (s.pc j)

structure Sound (s : Membership ι) : Prop where
  owner : ∀ i, (s.pc i).holds = true → s.owner = some i
  calm : ∀ i n, (s.pc i).leaves = some n → s.Calm n
  elected : ∀ i n, s.pc i = .left n → s.manager.state_.leader_id ≠ n
  relocking : ∀ i n, s.pc i ≠ .relocking n

theorem holds_of_leaves {pc : HandlerPc} (h : pc.leaves = some n) : pc.holds = true := by
  cases pc <;> first | rfl | cases h

omit [DecidableEq ι] in
/-- Only one thread has the lock. -/
theorem Sound.holds_of_ne (h : Sound s) (howner : s.owner = none ∨ s.owner = some i) (hj : j ≠ i) :
    (s.pc j).holds = false := by
  cases hholds : (s.pc j).holds with
  | false => rfl
  | true =>
    rw [h.owner j hholds] at howner
    rcases howner with hnone | hsome
    · cases hnone
    · exact absurd (Option.some.inj hsome) hj

variable {manager : ClusterManager} {owner : Option ι} {pc : HandlerPc}

/-- What a thread aims at depends on the other nodes only. -/
theorem aims_put (hid : manager.node_id_ = s.manager.node_id_)
    (hstatus : ∀ k, k ≠ n → (manager.state_.nodes k).status = s.status k) (q : HandlerPc) :
    (s.put i manager owner pc).Aims n q ↔ s.Aims n q := by
  have hfalls : ∀ k, (s.put i manager owner pc).Falls n k ↔ s.Falls n k := by
    intro k
    refine and_congr (by rw [← hid]; rfl) (forall_congr' fun m => imp_congr_right fun _ => imp_congr_right fun hm => ?_)
    rw [← hstatus m hm]
    rfl
  cases q with
  | leaving _ => exact hfalls 0
  | scanning k => exact hfalls k
  | _ => exact Iff.rfl

/-- A step of a thread that has the lock, or gets it and releases it, while no other
    thread has it. -/
theorem sound_put_alone (hothers : ∀ j, j ≠ i → (s.pc j).holds = false)
    (hpc : pc.holds = false ∨ pc = .joining ∧ owner = some i) : Sound (s.put i manager owner pc) := by
  have hholds : ∀ j, ((s.put i manager owner pc).pc j).holds = true → j = i ∧ pc = .joining ∧ owner = some i := by
    intro j hj
    by_cases hji : j = i
    · subst hji
      rw [put_pc_self] at hj
      exact ⟨rfl, hpc.resolve_left (by rw [hj]; decide)⟩
    · rw [put_pc_of_ne _ _ _ hji, hothers j hji] at hj
      cases hj
  have hjoining : ∀ j, ((s.put i manager owner pc).pc j).holds = true → (s.put i manager owner pc).pc j = .joining := by
    intro j hj
    obtain ⟨rfl, hpc, -⟩ := hholds j hj
    rw [put_pc_self, hpc]
  refine ⟨fun j hj => ?_, fun j n hj => ?_, fun j n hj => ?_, fun j n hj => ?_⟩
  · obtain ⟨rfl, -, howner⟩ := hholds j hj
    exact howner
  · rw [hjoining j (holds_of_leaves hj)] at hj
    cases hj
  · rw [hjoining j (by rw [hj]; rfl)] at hj
    cases hj
  · rw [hjoining j (by rw [hj]; rfl)] at hj
    cases hj

/-- A step of a thread without the lock. -/
theorem Sound.put_aside (h : Sound s) (hi : (s.pc i).holds = false) (hpc : pc.holds = false)
    (hid : manager.node_id_ = s.manager.node_id_) (hnodes : manager.state_.nodes = s.manager.state_.nodes)
    (haims : ∀ n, s.Calm n → ¬s.Aims n pc)
    (hleader : ∀ n, s.Calm n → s.manager.state_.leader_id ≠ n → manager.state_.leader_id ≠ n) :
    Sound (s.put i manager s.owner pc) := by
  have hother : ∀ j, ((s.put i manager s.owner pc).pc j).holds = true → (s.put i manager s.owner pc).pc j = s.pc j := by
    intro j hj
    by_cases hji : j = i
    · subst hji
      rw [put_pc_self, hpc] at hj
      cases hj
    · exact put_pc_of_ne _ _ _ hji
  have hstatus : ∀ k, (manager.state_.nodes k).status = s.status k := by
    intro k
    rw [hnodes]
    rfl
  refine ⟨fun j hj => ?_, fun j n hj => ?_, fun j n hj => ?_, fun j n hj => ?_⟩
  · rw [hother j hj] at hj
    exact h.owner j hj
  · rw [hother j (holds_of_leaves hj)] at hj
    have hcalm := h.calm j n hj
    refine ⟨(hstatus n).trans hcalm.1, fun k => ?_⟩
    rw [aims_put hid fun k _ => hstatus k]
    by_cases hki : k = i
    · subst hki
      rw [put_pc_self]
      exact haims n hcalm
    · rw [put_pc_of_ne _ _ _ hki]
      exact hcalm.2 k
  · have hj' := (hother j (by rw [hj]; rfl)).symm.trans hj
    exact hleader n (h.calm j n (by rw [hj']; rfl)) (h.elected j n hj')
  · exact h.relocking j n ((hother j (by rw [hj]; rfl)).symm.trans hj)

/-- A step of `handle_leave`, while no other thread has the lock. -/
theorem sound_put_leaver (hothers : ∀ j, j ≠ i → (s.pc j).holds = false) (hpc : pc.leaves = some n)
    (howner : owner = some i) (hcalm : (s.put i manager owner pc).Calm n)
    (hleader : pc = .left n → manager.state_.leader_id ≠ n) : Sound (s.put i manager owner pc) := by
  have hself : ∀ j, ((s.put i manager owner pc).pc j).holds = true → j = i := by
    intro j hj
    by_contra hji
    rw [put_pc_of_ne _ _ _ hji, hothers j hji] at hj
    cases hj
  have hnode : ∀ j m, ((s.put i manager owner pc).pc j).leaves = some m → j = i ∧ m = n := by
    intro j m hj
    obtain rfl := hself j (holds_of_leaves hj)
    rw [put_pc_self, hpc] at hj
    exact ⟨rfl, (Option.some.inj hj).symm⟩
  refine ⟨fun j hj => ?_, fun j m hj => ?_, fun j m hj => ?_, fun j m hj => ?_⟩
  · rw [hself j hj]
    exact howner
  · rw [(hnode j m hj).2]
    exact hcalm
  · obtain ⟨rfl, rfl⟩ := hnode j m (by rw [hj]; rfl)
    rw [put_pc_self] at hj
    exact hleader hj
  · obtain rfl := hself j (by rw [hj]; rfl)
    rw [put_pc_self] at hj
    rw [hj] at hpc
    cases hpc

omit [DecidableEq ι] in
theorem status_offline (s : Membership ι) (n k : NodeId) :
    ((offline s.manager n).state_.nodes k).status = if k = n then .OFFLINE else s.status k :=
  ClusterManager.status_setNode k

omit [DecidableEq ι] in
theorem status_elect (s : Membership ι) (k : NodeId) : ((elect s.manager).state_.nodes k).status = s.status k := by
  show ((elect_leader _ s.manager.state_).nodes k).status = _
  rw [ClusterManager.nodes_elect_leader]
  rfl

theorem sound_leave (h : Sound s) (hi : s.Enters i) (hfalls : ¬s.Falls n 0) (haims : ∀ j, ¬s.Aims n (s.pc j)) :
    Sound (s.put i (offline s.manager n) (some i) (.leaving n)) := by
  have hid : (offline s.manager n).node_id_ = s.manager.node_id_ := rfl
  have hstatus := status_offline s n
  apply sound_put_leaver (fun j hj => h.holds_of_ne (.inl hi.2) hj) rfl rfl
  · refine ⟨(hstatus n).trans (if_pos rfl), fun j => ?_⟩
    rw [aims_put hid fun k hk => (hstatus k).trans (if_neg hk)]
    by_cases hj : j = i
    · subst hj
      rw [put_pc_self]
      exact hfalls
    · rw [put_pc_of_ne _ _ _ hj]
      exact haims j
  · intro hleft
    cases hleft

/-- The election does not choose a node that is offline, unless it falls back to it. -/
theorem sound_elect (h : Sound s) (hi : s.pc i = .leaving n) :
    Sound (s.put i (elect s.manager) s.owner (.left n)) := by
  have howner := h.owner i (by rw [hi]; rfl)
  have hcalm := h.calm i n (by rw [hi]; rfl)
  have hid : (elect s.manager).node_id_ = s.manager.node_id_ := rfl
  have hstatus := status_elect s
  apply sound_put_leaver (fun j hj => h.holds_of_ne (.inr howner) hj) rfl howner
  · refine ⟨(hstatus n).trans hcalm.1, fun j => ?_⟩
    rw [aims_put hid fun k _ => hstatus k]
    by_cases hj : j = i
    · subst hj
      rw [put_pc_self]
      exact id
    · rw [put_pc_of_ne _ _ _ hj]
      exact hcalm.2 j
  · intro _ hleader
    have hfalls : ¬s.Falls n 0 := by
      have hi' := hcalm.2 i
      rw [hi] at hi'
      exact hi'
    rcases finds_elect s with ⟨-, honline, -⟩ | ⟨hself, hnone⟩
    · rw [hleader, hcalm.1] at honline
      cases honline
    · exact hfalls ⟨hleader.symm.trans hself, fun m _ _ => hnone m (Nat.zero_le _)⟩

theorem sound_step {a : ι × MembershipCall} (h : Sound s) (hok : s.Safe a) (hs : Step s a s') : Sound s' := by
  cases hs with
  | join hi info now_us => exact sound_put_alone (fun j hj => h.holds_of_ne (.inl hi.2) hj) (.inr ⟨rfl, rfl⟩)
  | joined hi | follows hi hn =>
    have howner := h.owner _ (by rw [hi]; rfl)
    exact sound_put_alone (fun j hj => h.holds_of_ne (.inr howner) hj) (.inl rfl)
  | leave_offline hi hn => exact h
  | leave hi hn =>
    obtain ⟨hfalls, haims⟩ := hok.resolve_left hn
    exact sound_leave h hi hfalls haims
  | elect hi => exact sound_elect h hi
  | leads hi hn => exact absurd hn.symm (h.elected _ _ hi)
  | heartbeat hi info now_us | failure hi n =>
    exact sound_put_alone (fun j hj => h.holds_of_ne (.inl hi.2) hj) (.inl rfl)
  | @evict i n hi now_us =>
    have hid : (evict s.manager n now_us).node_id_ = s.manager.node_id_ := rfl
    apply h.put_aside (by rw [hi]; rfl) rfl hid rfl
    · exact fun _ _ => id
    · exact fun _ _ => id
  | elects hi hfree hleads | handled hi hfree hleads =>
    exact sound_put_alone (fun j hj => h.holds_of_ne (.inl hfree) hj) (.inl rfl)
  | @found i k hi hk =>
    apply h.put_aside (by rw [hi]; rfl) rfl rfl rfl
    · -- the entry was read online
      intro n hcalm heq
      have heq : k = n := heq
      rw [heq, hcalm.1] at hk
      cases hk
    · exact fun _ _ => id
  | @skipped i k hi hk =>
    apply h.put_aside (by rw [hi]; rfl) rfl rfl rfl
    · -- what the rest of the scan falls back to, the scan from `k` on does
      intro n hcalm hfalls
      have hscan := hcalm.2 i
      rw [hi] at hscan
      refine hscan ⟨hfalls.1, fun m hm hne => ?_⟩
      rcases Nat.lt_or_eq_of_le hm with hlt | heq
      · exact hfalls.2 m hlt hne
      · rw [← Fin.ext heq]
        exact hk
    · exact fun _ _ => id
  | @scanned i k hi hk =>
    apply h.put_aside (by rw [hi]; rfl) rfl rfl rfl
    · intro n hcalm heq
      have hscan := hcalm.2 i
      rw [hi] at hscan
      refine hscan ⟨heq.symm, fun m hm => ?_⟩
      exact absurd (Nat.lt_of_lt_of_le m.isLt hk) (Nat.not_lt.mpr hm)
    · exact fun _ _ => id
  | @write i l hi =>
    have hid : (lead s.manager l).node_id_ = s.manager.node_id_ := rfl
    apply h.put_aside (by rw [hi]; rfl) rfl hid rfl
    · exact fun _ _ => id
    · intro n hcalm _
      have hwrite := hcalm.2 i
      rw [hi] at hwrite
      exact hwrite

theorem sound_of_reach (h : (system ι me memory_per_node).Reach Safe s) : Sound s := by
  apply System.Reach.invariant (I := Sound) _ _ h
  · intro s hs
    rw [hs]
    exact ⟨nofun, nofun, nofun, nofun⟩
  · intro s a s' hI hok hstep
    exact sound_step hI hok hstep

/-! ### Calls that get stuck -/

theorem exists_relocking_of_leads (hpc : s.pc i = .left n) (hleads : n = s.manager.state_.leader_id) :
    (system ι me memory_per_node).Leads (fun s' => s'.pc i = .relocking n) s :=
  .step (Step.leads hpc hleads) (.here (put_pc_self ..))

/-- Another thread makes the node the leader between the election and the test. -/
theorem exists_leads (hpc : s.pc i = .left n) (hn : s.status n = .OFFLINE) (hij : j ≠ i) (hj : (s.pc j).holds = false)
    (haims : s.Aims n (s.pc j)) :
    (system ι me memory_per_node).Leads (fun s' => s'.pc i = .left n ∧ n = s'.manager.state_.leader_id) s := by
  have hpc' : (s.put j (lead s.manager n) s.owner .idle).pc i = .left n := by
    rw [put_pc_of_ne _ _ _ hij.symm]
    exact hpc
  cases hpcj : s.pc j with
  | leaving m =>
    rw [hpcj] at hj
    cases hj
  | scanning k =>
    rw [hpcj] at haims
    have hfinds : s.Finds k n := by
      refine .inr ⟨haims.1, fun m hm => ?_⟩
      by_cases hmn : m = n
      · rw [hmn, hn]
        decide
      · exact haims.2 m hm hmn
    refine (scan_alone hpcj hfinds).trans fun s' hs' => .here ?_
    rw [hs']
    exact ⟨hpc', rfl⟩
  | writing m =>
    rw [hpcj] at haims
    obtain rfl : m = n := haims
    exact .step (Step.write hpcj) (.here ⟨hpc', rfl⟩)
  | _ =>
    rw [hpcj] at haims
    exact haims.elim

omit [DecidableEq ι] in
/-- The election falls back to the node that left. -/
theorem leads_of_falls (h : s.Falls n 0) : n = (elect (offline s.manager n)).state_.leader_id := by
  rcases finds_elect { s with manager := offline s.manager n } with ⟨-, honline, -⟩ | ⟨hself, -⟩
  · have hstatus := (status_offline s n _).symm.trans honline
    split at hstatus
    · cases hstatus
    · rename_i hne
      exact absurd hstatus (h.2 _ (Nat.zero_le _) hne)
  · exact h.1.trans hself.symm

theorem exists_relocking (h : Sound s) (hs : Step s (i, .leave n) s') (hleaves : ¬s.Safe (i, .leave n)) :
    (system ι me memory_per_node).Leads (fun s'' => s''.pc i = .relocking n) s' := by
  cases hs with
  | leave_offline hi hn => exact absurd (.inl hn) hleaves
  | leave hi hn =>
    refine .step (Step.elect (put_pc_self ..)) ?_
    rw [put_put]
    by_cases hleads : n = (elect (offline s.manager n)).state_.leader_id
    · exact exists_relocking_of_leads (put_pc_self ..) hleads
    · -- the call does not elect the node, so another thread is about to
      have hstatus : ∀ k, ((elect (offline s.manager n)).state_.nodes k).status = if k = n then .OFFLINE else s.status k :=
        fun k => (status_elect (s.put i (offline s.manager n) (some i) (.leaving n)) k).trans (status_offline s n k)
      have hid : (elect (offline s.manager n)).node_id_ = s.manager.node_id_ := rfl
      obtain ⟨j, haims⟩ : ∃ j, s.Aims n (s.pc j) := by
        by_contra hnone
        exact hleaves (.inr ⟨mt leads_of_falls hleads, not_exists.mp hnone⟩)
      have hij : j ≠ i := by
        rintro rfl
        rw [hi.1] at haims
        exact haims
      have hpcj : (s.put i (elect (offline s.manager n)) (some i) (.left n)).pc j = s.pc j := put_pc_of_ne _ _ _ hij
      have hj := h.holds_of_ne (.inl hi.2) hij
      rw [← hpcj] at haims hj
      rw [← aims_put hid fun k hk => (hstatus k).trans (if_neg hk)] at haims
      refine (exists_leads (put_pc_self ..) ((hstatus n).trans (if_pos rfl)) hij hj haims).trans ?_
      intro s₁ hs₁
      exact exists_relocking_of_leads hs₁.1 hs₁.2

/-- **The lock**: if every call of `handle_leave` is safe when it gets the lock, no
    thread waits for the lock while it has it. A call that is not safe can get there. -/
theorem locks_exact (h : (system ι me memory_per_node).Reach Safe s) :
    (∀ i n, s.pc i ≠ .relocking n) ∧
      ∀ i n s', Step s (i, .leave n) s' → ¬s.Safe (i, .leave n) →
        ∃ l s'', (system ι me memory_per_node).Steps s' l s'' ∧ s''.pc i = .relocking n := by
  have hsound := sound_of_reach h
  refine ⟨hsound.relocking, fun i n s' hs hleaves => ?_⟩
  exact exists_relocking hsound hs hleaves

/-- Node 1 joins the manager of node 0 and leaves again. -/
theorem locks_exact_member :
    ∃ s, (system Unit 0 0).Reach Safe s ∧ s.status 1 = .OFFLINE ∧ s.pc () = .idle ∧ ∀ i n, s.pc i ≠ .relocking n := by
  have hinit : (system Unit 0 0).Reach Safe _ := .init rfl
  have hjoin := hinit.next (.join (i := ()) ⟨rfl, rfl⟩ { node_id := 1 } 5)
  have hjoined := hjoin.next (.joined (i := ()) rfl)
  have hleave := hjoined.step
    (by exact .inr ⟨fun h => absurd h.1 (by decide), fun j h => h⟩)
    (Step.leave (i := ()) (n := 1) ⟨rfl, rfl⟩ (by decide))
  have helect := hleave.next (.elect (i := ()) rfl)
  have hdone := helect.next (.follows (i := ()) rfl (by decide))
  exact ⟨_, hdone, by decide, rfl, (locks_exact hdone).1⟩

/-- The only node of a cluster leaves, and waits for its own lock. -/
theorem last_node_relocks : ∃ s, (system Unit 0 0).Reachable s ∧ s.owner = some () ∧ s.pc () = .relocking 0 := by
  have hinit : (system Unit 0 0).Reachable _ := .init rfl
  have hleave := hinit.next (.leave (i := ()) (n := 0) ⟨rfl, rfl⟩ (by decide))
  have helect := hleave.next (.elect (i := ()) rfl)
  have hleads := helect.next (.leads (i := ()) rfl (by decide))
  exact ⟨_, hleads, rfl, rfl⟩

end Membership

end Mccl
