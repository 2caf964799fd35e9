import Mccl.Runtime.ClusterManager

/-! # The Heartbeat Monitor

    Model of `ClusterManager::heartbeat_monitor_loop` (`runtime/ClusterManager.cpp`)
    against the handlers that other threads call. The monitor reads the clock before
    it locks `state_mu_`, and keeps the reading while it releases the mutex around
    each failure.

    * A verdict is right if the entry that was inspected is the one that is failed,
      and its heartbeat is older than the timeout when it is inspected.
    * `verdicts_exact`: they all are, unless a heartbeat is recorded after the clock
      was read, for a node that is still to be inspected. Its age wraps.
    * An entry that was never written names node 0. So nodes that leave or fail must
      be known. -/

namespace Mccl

/-- The part of `ClusterManager::Config` that the monitor reads. -/
structure MonitorConfig where
  node_id : NodeId
  total_nodes : Nat
  heartbeat_timeout_ms : Int32
  total_le : total_nodes ≤ MAX_CLUSTER_NODES

def MonitorConfig.timeout_us (cfg : MonitorConfig) : UInt64 := cfg.heartbeat_timeout_ms.toInt64.toUInt64 * 1000

/-- Where the monitor is; `now` is the clock that it has read. -/
inductive Monitor where
  | idle
  /-- Before `state_mu_` is locked. -/
  | waiting (now : UInt64)
  /-- At the head of the loop over the nodes, with `state_mu_` locked. -/
  | inspecting (now : UInt64) (i : Nat)
  /-- `state_mu_` is unlocked, `handle_node_failure(failed)` is to be called. -/
  | failing (now : UInt64) (i : Nat) (failed : NodeId)
  /-- Before `state_mu_` is locked again. -/
  | relocking (now : UInt64) (i : Nat)

namespace Monitor

def holds : Monitor → Bool
  | inspecting _ _ => true
  | _ => false

/-- The clock reading that this pass uses. -/
def reading : Monitor → Option UInt64
  | idle => none
  | waiting now => some now
  | inspecting now _ => some now
  | failing now _ _ => some now
  | relocking now _ => some now

/-- Node `n` is still to be inspected in this pass, with the given reading. -/
def Awaits (n : NodeId) (now : UInt64) : Monitor → Prop
  | idle => False
  | waiting now' => now' = now
  | inspecting now' i => now' = now ∧ i ≤ n.val
  | failing now' i _ => now' = now ∧ i < n.val
  | relocking now' i => now' = now ∧ i < n.val

end Monitor

/-- What is known when a node is failed. -/
structure Verdict where
  inspected : NodeId
  failed : NodeId
  last_heartbeat_us : UInt64
  clock : UInt64

/-- The node that is failed was inspected, and its heartbeat was too old then. -/
def Verdict.Right (timeout_ms : Int32) (v : Verdict) : Prop :=
  v.failed = v.inspected ∧ timeout_ms.toInt * 1000 < (v.clock.toNat : Int) - v.last_heartbeat_us.toNat

instance (timeout_ms : Int32) (v : Verdict) : Decidable (v.Right timeout_ms) := inferInstanceAs (Decidable (_ ∧ _))

structure Watch where
  manager : ClusterManager
  clock : UInt64
  monitor : Monitor := .idle
  /-- The failures that the monitor has found. -/
  verdicts : List Verdict := []

/-- Calls of other threads. -/
inductive HandlerCall where
  | join (info : NodeInfo)
  | heartbeat (info : NodeInfo)
  | leave (node_id : NodeId)
  | failure (node_id : NodeId) (now_us : UInt64 → UInt64)

namespace HandlerCall

def run (m : ClusterManager) (clock : UInt64) : HandlerCall → ClusterManager
  | join info => m.handle_join info clock
  | heartbeat info => m.handle_heartbeat info clock
  | leave node_id => m.handle_leave node_id
  | failure node_id now_us => m.handle_node_failure node_id now_us

def node : HandlerCall → NodeId
  | join info => info.node_id
  | heartbeat info => info.node_id
  | leave node_id => node_id
  | failure node_id _ => node_id

/-- The call records a heartbeat. -/
def records : HandlerCall → Bool
  | join _ => true
  | heartbeat _ => true
  | _ => false

end HandlerCall

inductive WatchLabel where
  | wait (clock : UInt64)
  | call (c : HandlerCall)
  | monitor

namespace Watch

def entry (s : Watch) (n : NodeId) : NodeInfo := s.manager.state_.nodes n

/-- The test of the loop over the nodes. -/
def Expired (cfg : MonitorConfig) (s : Watch) (now : UInt64) (n : NodeId) : Prop :=
  n ≠ cfg.node_id ∧ ((s.entry n).status = .ONLINE ∨ (s.entry n).status = .DEGRADED) ∧
    cfg.timeout_us < now - (s.entry n).last_heartbeat_us

inductive Step (cfg : MonitorConfig) : Watch → WatchLabel → Watch → Prop where
  /-- The clock does not go back. -/
  | wait {s : Watch} {clock : UInt64} (h : s.clock ≤ clock) : Step cfg s (.wait clock) { s with clock := clock }
  | call {s : Watch} (hfree : s.manager.blocked = false) (hmonitor : s.monitor.holds = false) (c : HandlerCall) :
      Step cfg s (.call c) { s with manager := c.run s.manager s.clock }
  | start {s : Watch} (h : s.monitor = .idle) : Step cfg s .monitor { s with monitor := .waiting s.clock }
  | lock {s : Watch} {now : UInt64} (h : s.monitor = .waiting now) (hfree : s.manager.blocked = false) :
      Step cfg s .monitor { s with monitor := .inspecting now 0 }
  | skip {s : Watch} {now : UInt64} {n : NodeId} (h : s.monitor = .inspecting now n.val)
      (hn : n.val < cfg.total_nodes) (hskip : ¬s.Expired cfg now n) :
      Step cfg s .monitor { s with monitor := .inspecting now (n.val + 1) }
  | fail {s : Watch} {now : UInt64} {n : NodeId} (h : s.monitor = .inspecting now n.val)
      (hn : n.val < cfg.total_nodes) (hexpired : s.Expired cfg now n) :
      Step cfg s .monitor
        { s with
          monitor := .failing now n.val (s.entry n).node_id
          verdicts := s.verdicts ++ [⟨n, (s.entry n).node_id, (s.entry n).last_heartbeat_us, s.clock⟩] }
  | handle {s : Watch} {now : UInt64} {i : Nat} {failed : NodeId} (h : s.monitor = .failing now i failed)
      (hfree : s.manager.blocked = false) (now_us : UInt64 → UInt64) :
      Step cfg s .monitor
        { s with manager := s.manager.handle_node_failure failed now_us, monitor := .relocking now i }
  | relock {s : Watch} {now : UInt64} {i : Nat} (h : s.monitor = .relocking now i)
      (hfree : s.manager.blocked = false) : Step cfg s .monitor { s with monitor := .inspecting now (i + 1) }
  | done {s : Watch} {now : UInt64} (h : s.monitor = .inspecting now cfg.total_nodes) :
      Step cfg s .monitor { s with monitor := .idle }

def system (cfg : MonitorConfig) (memory_per_node : UInt64) : System Watch WatchLabel where
  init s := ∃ clock, s = { manager := .new cfg.node_id memory_per_node, clock := clock }
  step := Step cfg

/-! ## What the Calls Write -/

/-- What a call makes of the entry of its node. -/
structure Writes (c : HandlerCall) (clock : UInt64) (old entry : NodeInfo) : Prop where
  online : c.records = true → entry.status = .ONLINE
  time : entry.last_heartbeat_us = if c.records then clock else old.last_heartbeat_us
  id : entry.node_id = c.node ∨ entry.node_id = old.node_id ∧ (c.records = true → old.status ≠ .UNKNOWN)

theorem writes (c : HandlerCall) (m : ClusterManager) (clock : UInt64) :
    ∃ entry, (c.run m clock).state_.nodes = Function.update m.state_.nodes c.node entry ∧
      Writes c clock (m.state_.nodes c.node) entry := by
  cases c with
  | join info => exact ⟨_, ClusterManager.nodes_elect_leader .., ⟨fun _ => rfl, rfl, .inl rfl⟩⟩
  | heartbeat info =>
    show ∃ entry, (m.handle_heartbeat info clock).state_.nodes = _ ∧ _
    unfold ClusterManager.handle_heartbeat
    by_cases hunknown : (m.state_.nodes info.node_id).status = .UNKNOWN
    · simp only [hunknown, if_true, ne_eq, not_true_eq_false, if_false]
      exact ⟨_, rfl, ⟨fun _ => rfl, rfl, .inl rfl⟩⟩
    · simp only [hunknown, if_false]
      split
      · exact ⟨_, rfl, ⟨fun _ => rfl, rfl, .inr ⟨rfl, fun _ => hunknown⟩⟩⟩
      · rename_i honline
        exact ⟨_, rfl, ⟨fun _ => not_not.mp honline, rfl, .inr ⟨rfl, fun _ => hunknown⟩⟩⟩
  | leave n =>
    show ∃ entry, (m.handle_leave n).state_.nodes = _ ∧ _
    unfold ClusterManager.handle_leave
    split
    · exact ⟨_, (Function.update_eq_self ..).symm, ⟨nofun, rfl, .inr ⟨rfl, nofun⟩⟩⟩
    · exact ⟨_, ClusterManager.nodes_elect_leader .., ⟨nofun, rfl, .inr ⟨rfl, nofun⟩⟩⟩
  | failure n now_us =>
    show ∃ entry, (m.handle_node_failure n now_us).state_.nodes = _ ∧ _
    unfold ClusterManager.handle_node_failure
    simp only
    split
    · exact ⟨_, ClusterManager.nodes_elect_leader .., ⟨nofun, rfl, .inr ⟨rfl, nofun⟩⟩⟩
    · exact ⟨_, rfl, ⟨nofun, rfl, .inr ⟨rfl, nofun⟩⟩⟩

theorem entry_of_ne {s : Watch} {nodes : NodeId → NodeInfo} {n k : NodeId} {entry : NodeInfo}
    (h : nodes = Function.update s.manager.state_.nodes n entry) (hk : k ≠ n) : nodes k = s.entry k := by
  rw [h, Function.update_of_ne hk]
  rfl

variable {c : HandlerCall}

theorem blocked_of_records (h : c.records = true) (m : ClusterManager) (clock : UInt64) :
    (c.run m clock).blocked = m.blocked := by
  cases c with
  | join info => rfl
  | heartbeat info =>
    show (m.handle_heartbeat info clock).blocked = m.blocked
    unfold ClusterManager.handle_heartbeat
    simp only [apply_ite ClusterManager.blocked, ite_self]
  | leave n => cases h
  | failure n now_us => cases h

/-! ## Verdicts -/

/-- The age wraps to more than the timeout, although the record is newer than the
    reading. -/
def Wraps (cfg : MonitorConfig) (now last : UInt64) : Prop :=
  0 ≤ cfg.heartbeat_timeout_ms.toInt ∧ now < last ∧ cfg.timeout_us < now - last

/-- The current pass will misread a heartbeat of `n` that was recorded at `last`. -/
def Misread (cfg : MonitorConfig) (monitor : Monitor) (n : NodeId) (last : UInt64) : Prop :=
  n ≠ cfg.node_id ∧ n.val < cfg.total_nodes ∧ ∃ now, monitor.Awaits n now ∧ Wraps cfg now last

/-- The calls that keep the verdicts right: no heartbeat is recorded that the current
    pass will misread, and only nodes that are known leave or fail. -/
def Timely (cfg : MonitorConfig) (s : Watch) : WatchLabel → Prop
  | .call c =>
    if c.records then ¬Misread cfg s.monitor c.node s.clock
    else (s.entry c.node).status ≠ .UNKNOWN ∨ (s.entry c.node).node_id = c.node
  | _ => True

/-- What is true of the entry of a node. -/
structure EntrySound (cfg : MonitorConfig) (clock : UInt64) (monitor : Monitor) (n : NodeId) (e : NodeInfo) : Prop where
  named : e.status ≠ .UNKNOWN → e.node_id = n
  recorded : e.last_heartbeat_us ≤ clock
  read : ¬Misread cfg monitor n e.last_heartbeat_us
  /-- A node that is about to be failed is known. -/
  known : ∀ now i, monitor = .failing now i n → e.node_id = n

structure Sound (cfg : MonitorConfig) (s : Watch) : Prop where
  entries : ∀ n, EntrySound cfg s.clock s.monitor n (s.entry n)
  reading : ∀ now, s.monitor.reading = some now → now ≤ s.clock
  failing : ∀ now i failed, s.monitor = .failing now i failed → failed.val = i
  verdicts : ∀ v ∈ s.verdicts, v.Right cfg.heartbeat_timeout_ms

variable {cfg : MonitorConfig} {memory_per_node : UInt64} {s s' : Watch} {now : UInt64} {n : NodeId}

theorem Misread.mono {monitor monitor' : Monitor} {last : UInt64}
    (hawaits : ∀ now, monitor'.Awaits n now → monitor.Awaits n now) (h : Misread cfg monitor' n last) :
    Misread cfg monitor n last := by
  obtain ⟨hself, hn, now, hnow, hwraps⟩ := h
  exact ⟨hself, hn, now, hawaits now hnow, hwraps⟩

/-- A step of the monitor that writes no entry and fails no node. -/
theorem Sound.goto {monitor monitor' : Monitor} (h : Sound cfg s) (hmonitor : s.monitor = monitor)
    (hawaits : ∀ n now, monitor'.Awaits n now → monitor.Awaits n now)
    (hreading : ∀ now, monitor'.reading = some now → monitor.reading = some now)
    (hfailing : ∀ now i failed, monitor' ≠ .failing now i failed) : Sound cfg { s with monitor := monitor' } where
  entries n :=
    { h.entries n with
      read := fun hmisread => (h.entries n).read (hmonitor ▸ hmisread.mono (hawaits n))
      known := fun now i hf => absurd hf (hfailing now i n) }
  reading := fun now hnow => h.reading now (hmonitor ▸ hreading now hnow)
  failing := fun now i failed hf => absurd hf (hfailing now i failed)
  verdicts := h.verdicts

theorem EntrySound.writes {clock : UInt64} {monitor : Monitor} {old e : NodeInfo}
    (h : EntrySound cfg clock monitor c.node old) (hwrites : Writes c clock old e)
    (hread : c.records = true → ¬Misread cfg monitor c.node clock)
    (hknown : c.records = false → old.status ≠ .UNKNOWN ∨ old.node_id = c.node) :
    EntrySound cfg clock monitor c.node e := by
  have htime := hwrites.time
  constructor
  case named =>
    intro _
    rcases hwrites.id with hid | ⟨hid, hold⟩
    · exact hid
    · rw [hid]
      cases hrecords : c.records with
      | true => exact h.named (hold hrecords)
      | false => exact (hknown hrecords).elim h.named fun heq => heq
  case recorded =>
    rw [htime]
    split
    · exact UInt64.le_refl _
    · exact h.recorded
  case read =>
    rw [htime]
    split
    · rename_i hrecords
      exact hread hrecords
    · exact h.read
  case known =>
    intro now i hf
    rcases hwrites.id with hid | ⟨hid, -⟩
    · exact hid
    · rw [hid]
      exact h.known now i hf

theorem toNat_timeout (h : 0 ≤ cfg.heartbeat_timeout_ms.toInt) :
    (cfg.timeout_us.toNat : Int) = cfg.heartbeat_timeout_ms.toInt * 1000 := by
  have hlt := cfg.heartbeat_timeout_ms.toInt_lt
  have hwide : cfg.heartbeat_timeout_ms.toInt64.toInt = cfg.heartbeat_timeout_ms.toInt := Int32.toInt_toInt64 _
  have hnonneg : 0 ≤ cfg.heartbeat_timeout_ms.toInt64 := by
    rw [Int64.le_iff_toInt_le, hwide]
    exact h
  have hcast : cfg.heartbeat_timeout_ms.toInt64.toUInt64.toNat = cfg.heartbeat_timeout_ms.toInt.toNat := by
    rw [Int64.toNat_toUInt64_of_le hnonneg, ← hwide]
    rfl
  have hthousand : (1000 : UInt64).toNat = 1000 := rfl
  rw [MonitorConfig.timeout_us, UInt64.toNat_mul, hcast, hthousand, Nat.mod_eq_of_lt (by omega)]
  omega

/-- A record that is not misread and looks too old is too old. -/
theorem older_of_expired {last clock : UInt64} (hnow : now ≤ clock) (hlast : last ≤ clock) (hread : ¬Wraps cfg now last)
    (hexpired : cfg.timeout_us < now - last) :
    cfg.heartbeat_timeout_ms.toInt * 1000 < (clock.toNat : Int) - last.toNat := by
  rw [UInt64.le_iff_toNat_le] at hnow hlast
  by_cases hsign : 0 ≤ cfg.heartbeat_timeout_ms.toInt
  · have hle : last ≤ now := by
      apply UInt64.not_lt.mp
      intro hlt
      exact hread ⟨hsign, hlt, hexpired⟩
    rw [UInt64.lt_iff_toNat_lt, UInt64.toNat_sub_of_le _ _ hle] at hexpired
    have htimeout := toNat_timeout hsign
    rw [UInt64.le_iff_toNat_le] at hle
    omega
  · omega

theorem Sound.call (h : Sound cfg s)
    (hread : c.records = true → ¬Misread cfg s.monitor c.node s.clock)
    (hknown : c.records = false → (s.entry c.node).status ≠ .UNKNOWN ∨ (s.entry c.node).node_id = c.node) :
    Sound cfg { s with manager := c.run s.manager s.clock } := by
  refine ⟨fun n => ?_, h.reading, h.failing, h.verdicts⟩
  obtain ⟨entry, hnodes, hwrites⟩ := writes c s.manager s.clock
  show EntrySound cfg s.clock s.monitor n ((c.run s.manager s.clock).state_.nodes n)
  by_cases hn : n = c.node
  · subst hn
    rw [hnodes, Function.update_self]
    exact (h.entries c.node).writes hwrites hread hknown
  · rw [entry_of_ne hnodes hn]
    exact h.entries n

theorem sound_step {a : WatchLabel} (h : Sound cfg s) (hok : Timely cfg s a) (hs : Step cfg s a s') : Sound cfg s' := by
  cases hs with
  | wait hclock =>
    refine ⟨fun n => ?_, fun now hnow => UInt64.le_trans (h.reading now hnow) hclock, h.failing, h.verdicts⟩
    have hn := h.entries n
    exact ⟨hn.named, UInt64.le_trans hn.recorded hclock, hn.read, hn.known⟩
  | call hfree hmonitor c =>
    apply h.call
    · intro hrecords
      rw [Timely, if_pos hrecords] at hok
      exact hok
    · intro hrecords
      rw [Timely, if_neg (by simp [hrecords])] at hok
      exact hok
  | start hmonitor =>
    refine ⟨fun n => ?_, fun now hnow => ?_, fun _ _ _ hf => ?_, h.verdicts⟩
    · -- the clock has just been read, and nothing is newer
      have hn := h.entries n
      refine ⟨hn.named, hn.recorded, fun hmisread => ?_, fun _ _ hf => nomatch hf⟩
      obtain ⟨-, -, now, rfl, -, hlt, -⟩ := hmisread
      exact absurd hlt (UInt64.not_lt.mpr hn.recorded)
    · cases hnow
      exact UInt64.le_refl _
    · cases hf
  | lock hmonitor hfree =>
    exact h.goto hmonitor (fun _ _ hnow => hnow.1) (fun _ hnow => hnow) nofun
  | skip hmonitor hn hskip =>
    exact h.goto hmonitor (fun _ _ hnow => ⟨hnow.1, Nat.le_of_succ_le hnow.2⟩) (fun _ hnow => hnow) nofun
  | @fail now n hmonitor hn hexpired =>
    obtain ⟨hself, hstatus, helapsed⟩ := hexpired
    have hentry := h.entries n
    have hid : (s.entry n).node_id = n := by
      apply hentry.named
      intro hunknown
      rw [hunknown] at hstatus
      exact hstatus.elim nofun nofun
    have hnow : now ≤ s.clock := h.reading now (by rw [hmonitor]; rfl)
    have hread : ¬Wraps cfg now (s.entry n).last_heartbeat_us := by
      intro hwraps
      refine hentry.read ⟨hself, hn, now, ?_, hwraps⟩
      rw [hmonitor]
      exact ⟨rfl, Nat.le_refl _⟩
    refine ⟨fun k => ?_, fun _ hnow => h.reading _ (hmonitor ▸ hnow), fun _ _ _ hf => ?_, ?_⟩
    · have hk := h.entries k
      refine ⟨hk.named, hk.recorded, fun hmisread => hk.read (hmisread.mono ?_), fun _ _ hf => ?_⟩
      · intro now' hnow'
        rw [hmonitor]
        exact ⟨hnow'.1, Nat.le_of_lt hnow'.2⟩
      · injection hf with _ _ hf
        rw [← hf, hid]
        exact hid
    · injection hf with _ hi hf
      rw [← hi, ← hf, hid]
    · refine List.forall_mem_append.mpr ⟨h.verdicts, List.forall_mem_singleton.mpr ⟨hid, ?_⟩⟩
      exact older_of_expired hnow hentry.recorded hread helapsed
  | @handle now i failed hmonitor hfree now_us =>
    have hcall := h.call (c := .failure failed now_us) nofun fun _ => .inr ((h.entries failed).known now i hmonitor)
    exact hcall.goto hmonitor (fun _ _ hnow => hnow) (fun _ hnow => hnow) nofun
  | relock hmonitor hfree => exact h.goto hmonitor (fun _ _ hnow => hnow) (fun _ hnow => hnow) nofun
  | done hmonitor => exact h.goto hmonitor nofun nofun nofun

theorem sound_of_reach (h : (system cfg memory_per_node).Reach (Timely cfg) s) : Sound cfg s := by
  apply System.Reach.invariant (I := Sound cfg) _ _ h
  · intro s hs
    obtain ⟨clock, rfl⟩ := hs
    refine ⟨fun n => ⟨?_, ?_, fun hmisread => hmisread.2.2.choose_spec.1.elim, nofun⟩, nofun, nofun, nofun⟩
    · intro hstatus
      by_cases hn : n = cfg.node_id
      · subst hn
        simp [entry, ClusterManager.new]
      · simp [entry, ClusterManager.new, hn] at hstatus
    · by_cases hn : n = cfg.node_id
      · subst hn
        simp [entry, ClusterManager.new]
      · simp [entry, ClusterManager.new, hn]
  · intro s a s' hI hok hstep
    exact sound_step hI hok hstep

/-! ### Misread heartbeats -/

theorem exists_relocked {i : Nat} {failed : NodeId} (hmonitor : s.monitor = .failing now i failed) (hne : n ≠ failed)
    (hfree : s.manager.blocked = false) :
    (system cfg memory_per_node).Leads (fun s' => s'.monitor = .inspecting now (i + 1) ∧
      s'.manager.blocked = false ∧ s'.entry n = s.entry n ∧ s'.clock = s.clock) s := by
  refine .step (Step.handle hmonitor hfree fun t => t) (.step (Step.relock rfl hfree) (.here ⟨rfl, hfree, ?_, rfl⟩))
  obtain ⟨entry, hnodes, -⟩ := writes (.failure failed fun t => t) s.manager s.clock
  exact entry_of_ne hnodes hne

/-- The monitor has got to the entry of `n`, which is as it was, or it has failed a
    node that it has not inspected. -/
def Inspects (s : Watch) (n : NodeId) (now : UInt64) (s' : Watch) : Prop :=
  (∃ v ∈ s'.verdicts, v.failed ≠ v.inspected) ∨
    s'.monitor = .inspecting now n.val ∧ s'.entry n = s.entry n ∧ s'.clock = s.clock

theorem Inspects.of_same {s₁ : Watch} (hentry : s₁.entry n = s.entry n) (hclock : s₁.clock = s.clock)
    (h : s₁.Inspects n now s') : s.Inspects n now s' := by
  unfold Inspects at h ⊢
  rwa [hentry, hclock] at h

/-- The monitor gets there, whatever the entries before `n` are. -/
theorem exists_inspecting {i : Nat} (hmonitor : s.monitor = .inspecting now i) (hi : i ≤ n.val)
    (hn : n.val < cfg.total_nodes) (hfree : s.manager.blocked = false) :
    (system cfg memory_per_node).Leads (s.Inspects n now) s := by
  -- on the number of nodes before `n`
  induction hk : n.val - i generalizing s i with
  | zero =>
    have heq : i = n.val := by omega
    exact .here (.inr ⟨heq ▸ hmonitor, rfl, rfl⟩)
  | succ k ih =>
    obtain ⟨m, rfl⟩ : ∃ m : NodeId, m.val = i := ⟨⟨i, by omega⟩, rfl⟩
    by_cases hexpired : s.Expired cfg now m
    · refine .step (Step.fail hmonitor (by omega) hexpired) ?_
      by_cases hid : (s.entry m).node_id = m
      · -- `m` is failed, and `n` is another node
        have hne : n ≠ (s.entry m).node_id := by
          intro heq
          rw [hid] at heq
          rw [heq] at hk
          omega
        refine .trans (exists_relocked rfl hne hfree) fun s₁ hs₁ => ?_
        obtain ⟨hmonitor', hfree', hentry, hclock⟩ := hs₁
        exact .trans (ih hmonitor' (by omega) hfree' (by omega)) fun s₂ hs₂ => .here (hs₂.of_same hentry hclock)
      · exact .here (.inl ⟨_, List.mem_append_right _ (List.mem_singleton_self _), hid⟩)
    · exact .step (Step.skip hmonitor (by omega) hexpired) (ih rfl (by omega) hfree (by omega))

/-- From anywhere in a pass that still awaits `n`. -/
theorem exists_inspecting_of_awaits (hawaits : s.monitor.Awaits n now) (hholds : s.monitor.holds = false)
    (hfailing : ∀ now i failed, s.monitor = .failing now i failed → failed.val = i) (hn : n.val < cfg.total_nodes)
    (hfree : s.manager.blocked = false) : (system cfg memory_per_node).Leads (s.Inspects n now) s := by
  cases hmonitor : s.monitor with
  | idle =>
    rw [hmonitor] at hawaits
    exact hawaits.elim
  | inspecting now' i =>
    rw [hmonitor] at hholds
    cases hholds
  | waiting now' =>
    rw [hmonitor] at hawaits
    cases hawaits
    exact .step (Step.lock hmonitor hfree) (exists_inspecting rfl (Nat.zero_le _) hn hfree)
  | failing now' i failed =>
    rw [hmonitor] at hawaits
    obtain ⟨rfl, hlt⟩ := hawaits
    have hne : n ≠ failed := by
      intro heq
      have hi := hfailing now' i failed hmonitor
      rw [heq] at hlt
      omega
    refine .trans (exists_relocked hmonitor hne hfree) fun s₁ hs₁ => ?_
    obtain ⟨hmonitor', hfree', hentry, hclock⟩ := hs₁
    exact .trans (exists_inspecting hmonitor' hlt hn hfree') fun s₂ hs₂ => .here (hs₂.of_same hentry hclock)
  | relocking now' i =>
    rw [hmonitor] at hawaits
    obtain ⟨rfl, hlt⟩ := hawaits
    exact .step (Step.relock hmonitor hfree) (exists_inspecting rfl hlt hn hfree)

/-- A heartbeat that the pass will misread may lead to a wrong verdict. -/
theorem exists_wrong (h : Sound cfg s) (hrecords : c.records = true) (hlate : ¬Timely cfg s (.call c))
    (hs : Step cfg s (.call c) s') :
    (system cfg memory_per_node).Leads (fun s'' => ∃ v ∈ s''.verdicts, ¬v.Right cfg.heartbeat_timeout_ms) s' := by
  cases hs with
  | call hfree hholds _ =>
    rw [Timely, if_pos hrecords, not_not] at hlate
    obtain ⟨hself, hn, now, hawaits, hsign, -, hexpired⟩ := hlate
    obtain ⟨entry, hnodes, hwrites⟩ := writes c s.manager s.clock
    have hentry : (c.run s.manager s.clock).state_.nodes c.node = entry := by rw [hnodes, Function.update_self]
    have htime : entry.last_heartbeat_us = s.clock := by rw [hwrites.time, if_pos hrecords]
    refine .trans (exists_inspecting_of_awaits hawaits hholds h.failing hn
      ((blocked_of_records hrecords ..).trans hfree)) fun s₁ hs₁ => ?_
    rcases hs₁ with ⟨v, hv, hne⟩ | ⟨hmonitor, hentry', hclock⟩
    · exact .here ⟨v, hv, fun hright => hne hright.1⟩
    · -- the entry is as the call wrote it, and the clock has not moved
      replace hentry' : s₁.entry c.node = entry := hentry'.trans hentry
      replace hclock : s₁.clock = s.clock := hclock
      have hexpired' : s₁.Expired cfg now c.node := by
        refine ⟨hself, .inl ?_, ?_⟩
        · rw [hentry', hwrites.online hrecords]
        · rw [hentry', htime]
          exact hexpired
      refine .step (Step.fail hmonitor hn hexpired')
        (.here ⟨_, List.mem_append_right _ (List.mem_singleton_self _), ?_⟩)
      intro hright
      have hage : cfg.heartbeat_timeout_ms.toInt * 1000 < (s₁.clock.toNat : Int) - (s₁.entry c.node).last_heartbeat_us.toNat :=
        hright.2
      rw [hentry', htime, hclock] at hage
      omega

/-- **The verdicts** are right if no heartbeat is recorded that the current pass
    misreads, and only nodes that are known leave or fail. A join or a heartbeat that
    is misread can lead to a wrong one. -/
theorem verdicts_exact (h : (system cfg memory_per_node).Reach (Timely cfg) s) :
    (∀ v ∈ s.verdicts, v.Right cfg.heartbeat_timeout_ms) ∧
      ∀ c s', c.records = true → Step cfg s (.call c) s' → ¬Timely cfg s (.call c) →
        ∃ l s'', (system cfg memory_per_node).Steps s' l s'' ∧
          ∃ v ∈ s''.verdicts, ¬v.Right cfg.heartbeat_timeout_ms := by
  have hsound := sound_of_reach h
  refine ⟨hsound.verdicts, fun c s' hrecords hs hlate => ?_⟩
  exact exists_wrong hsound hrecords hlate hs

/-- Between two passes, every heartbeat is timely. -/
theorem timely_of_idle (hrecords : c.records = true) (hidle : s.monitor = .idle) :
    Timely cfg s (.call c) := by
  rw [Timely, if_pos hrecords, hidle]
  intro hmisread
  obtain ⟨-, -, now, hnow, -⟩ := hmisread
  exact hnow

/-- Node 1 is silent for three seconds. -/
theorem verdicts_exact_silent :
    ∃ s, (system ⟨0, 3, 2000, by decide⟩ 0).Reach (Timely ⟨0, 3, 2000, by decide⟩) s ∧
      s.verdicts = [⟨1, 1, 0, 3000000⟩] ∧ ∀ v ∈ s.verdicts, v.Right 2000 := by
  have hinit : (system ⟨0, 3, 2000, by decide⟩ 0).Reach (Timely ⟨0, 3, 2000, by decide⟩) _ := .init ⟨0, rfl⟩
  have hheartbeat := hinit.step (timely_of_idle rfl rfl) (Step.call rfl rfl (.heartbeat { node_id := 1 }))
  have hwait := hheartbeat.next (.wait (show (0 : UInt64) ≤ 3000000 by decide))
  have hstart := hwait.next (.start rfl)
  have hlock := hstart.next (.lock rfl rfl)
  have hskip := hlock.next (.skip (n := 0) rfl (by decide) fun h => h.1 rfl)
  have hfail := hskip.next (.fail (n := 1) rfl (by decide) ⟨by decide, .inl (by decide), by decide⟩)
  exact ⟨_, hfail, rfl, (verdicts_exact hfail).1⟩

/-- Node 1 is failed for a heartbeat that has just arrived: the monitor had read the
    clock a microsecond before. -/
theorem fresh_heartbeat_fails :
    ∃ s, (system ⟨0, 3, 2000, by decide⟩ 0).Reachable s ∧
      s.verdicts = [⟨1, 1, 1, 1⟩] ∧ ∃ v ∈ s.verdicts, ¬v.Right 2000 := by
  have hinit : (system ⟨0, 3, 2000, by decide⟩ 0).Reachable _ := .init ⟨0, rfl⟩
  have hstart := hinit.next (.start rfl)
  have hwait := hstart.next (.wait (show (0 : UInt64) ≤ 1 by decide))
  have hheartbeat := hwait.next (.call rfl rfl (.heartbeat { node_id := 1 }))
  have hlock := hheartbeat.next (.lock rfl rfl)
  have hskip := hlock.next (.skip (n := 0) rfl (by decide) fun h => h.1 rfl)
  have hfail := hskip.next (.fail (n := 1) rfl (by decide) ⟨by decide, .inl (by decide), by decide⟩)
  exact ⟨_, hfail, rfl, _, List.mem_singleton_self _, by decide⟩

end Watch

end Mccl
