import Mccl.Coherence.Directory

/-! # Coherence between Nodes

    The nodes of a cluster exchange coherence messages over channels that keep the
    order of each pair of nodes. A step is a call of a node or the handling of the
    first message of a channel. A log records what the properties speak about.

    * `track_page` has no caller and replies, grants, invalidations and requests for
      a write-back have no handler. So the caches stay empty and no node ever
      acknowledges an invalidation or writes a page back (`quiet_of_reachable`).
    * `single_writer_iff`: the home grants a page only when all other nodes have given
      it up exactly if no other node has been answered for it before.
    * `agreement_iff`: at rest the caches agree with the directories exactly if nobody
      has asked for exclusive access. -/

namespace Mccl.Coherence

open Dmem

/-- The key of a page in the local cache; the offset is not part of it. -/
def pack (a : GlobalAddress) : UInt64 := a.node_id.toUInt64 <<< 48 ||| a.region_id.toUInt64 <<< 16

/-- The page that an address is in. -/
def pageOf (a : GlobalAddress) : GlobalAddress := { a with offset := page_align_down a.offset }

namespace Node

/-! ## Calls -/

def find_cached (n : Node) (page : GlobalAddress) : Option CachedPage := n.local_cache_.lookup (pack page)

/-- The request to the home node of a page. -/
def request (n : Node) (page : GlobalAddress) (write : Bool) : Result :=
  n.send_message page.node_id.toNat
    { op := if write then .EXCLUSIVE_REQ else .READ_REQ
      page_addr := page
      epoch := n.global_epoch_ }

def read_page (n : Node) (page : GlobalAddress) (write : Bool) : Result :=
  let page := pageOf page
  match n.find_cached page with
  | some cached =>
    -- An upgrade goes to the home like a miss.
    if write && cached.local_state = .SHARED then n.request page write
    else if !write || cached.local_state = .EXCLUSIVE then ⟨n, none⟩
    else n.request page write
  | none => n.request page write

def write_page_done (n : Node) (page : GlobalAddress) : Result :=
  let page := pageOf page
  let mark := fun (c : UInt64 × CachedPage) =>
    if c.1 = pack page ∧ c.2.local_state = .EXCLUSIVE then (c.1, { c.2 with dirty := true }) else c
  ⟨{ n with local_cache_ := n.local_cache_.map mark }, none⟩

/-- The loop of `release`: the pages it has passed and those that are left. -/
def releaseLoop : List (UInt64 × CachedPage) → List (UInt64 × CachedPage) → Node → Result
  | passed, [], n => ⟨{ n with local_cache_ := passed }, none⟩
  | passed, (key, page) :: rest, n =>
    if page.dirty && page.local_state = .EXCLUSIVE then
      let r := send_message { n with global_epoch_ := n.global_epoch_ + 1 } page.gaddr.node_id.toNat
        { op := .WRITEBACK_DATA, page_addr := page.gaddr, epoch := n.global_epoch_ }
      match r.error with
      -- The exception leaves the loop with the page still dirty.
      | some _ => { r with node := { r.node with local_cache_ := passed ++ (key, page) :: rest } }
      | none => releaseLoop (passed ++ [(key, { page with dirty := false, local_state := .SHARED })]) rest r.node
    else releaseLoop (passed ++ [(key, page)]) rest n

def release (n : Node) : Result :=
  (releaseLoop [] n.local_cache_ n).andThen fun n => ⟨{ n with global_epoch_ := n.global_epoch_ + 1 }, none⟩

/-- `acquire` and `fence` advance the epoch. -/
def advanceEpoch (n : Node) : Result := ⟨{ n with global_epoch_ := n.global_epoch_ + 1 }, none⟩

end Node

/-! ## The Network -/

/-- What happens to a page. -/
inductive Event where
  /-- `read_page` of the node has sent a request. -/
  | requested (node : Nat) (page : GlobalAddress) (write : Bool)
  /-- The home has sent a reply or a grant to the node. -/
  | answered (home node : Nat) (page : GlobalAddress) (op : CoherenceOp)
  /-- The home has handled an `INVAL_ACK` of the node that names the page. -/
  | acked (home node : Nat) (page : GlobalAddress)
  /-- The home has handled a `WRITEBACK_DATA` of the node. -/
  | wroteBack (home node : Nat) (page : GlobalAddress)
  /-- The node has handled an `EXCLUSIVE_GRANT` and has the page in its cache in the
      given state. -/
  | granted (node : Nat) (page : GlobalAddress) (cached : Option CoherenceState)
deriving DecidableEq

/-- What the log keeps of a message that node `i` sends. -/
def Event.ofSent (i : Nat) : Nat × CoherenceMessage → Option Event
  | (target, msg) =>
    match msg.op with
    | .READ_REQ => some (.requested i msg.page_addr false)
    | .EXCLUSIVE_REQ => some (.requested i msg.page_addr true)
    | .READ_REPLY => some (.answered i target msg.page_addr .READ_REPLY)
    | .READ_REPLY_DIRTY => some (.answered i target msg.page_addr .READ_REPLY_DIRTY)
    | .EXCLUSIVE_GRANT => some (.answered i target msg.page_addr .EXCLUSIVE_GRANT)
    | _ => none

/-- What the log keeps of a message from `sender` that node `j` has handled. -/
def Event.ofHandled (j sender : Nat) (msg : CoherenceMessage) (n : Node) : Option Event :=
  match msg.op with
  | .INVAL_ACK => some (.acked j sender msg.page_addr)
  | .WRITEBACK_DATA => some (.wroteBack j sender msg.page_addr)
  | .EXCLUSIVE_GRANT => some (.granted j msg.page_addr ((n.find_cached msg.page_addr).map (·.local_state)))
  | _ => none

theorem Event.ofSent_eq {i : Nat} {m : Nat × CoherenceMessage} {e : Event} (h : Event.ofSent i m = some e) :
    (e = .requested i m.2.page_addr false ∧ m.2.op = .READ_REQ) ∨
    (e = .requested i m.2.page_addr true ∧ m.2.op = .EXCLUSIVE_REQ) ∨
    e = .answered i m.1 m.2.page_addr m.2.op := by
  obtain ⟨target, msg⟩ := m
  simp only [Event.ofSent] at h
  split at h <;> simp_all

structure Net where
  node : Nat → Node
  /-- The messages from the first node to the second that have not been handled. -/
  channel : Nat → Nat → List CoherenceMessage
  log : List Event

namespace Net

/-- Node `i` has become `n`; its messages are on their way. -/
def commit (s : Net) (i : Nat) (n : Node) (handled : Option Event) : Net where
  node := Function.update s.node i { n with outbox := [] }
  channel a b := s.channel a b ++
    if a = i then n.outbox.filterMap (fun m => if m.1 = b then some m.2 else none) else []
  log := s.log ++ handled.toList ++ n.outbox.filterMap (Event.ofSent i)

/-- The first message from `i` to `j` has been taken. -/
def pop (s : Net) (i j : Nat) : Net :=
  { s with channel := fun a b => if a = i ∧ b = j then (s.channel a b).tail else s.channel a b }

end Net

inductive Act where
  | read_page (i : Nat) (page : GlobalAddress) (write : Bool)
  | write_page_done (i : Nat) (page : GlobalAddress)
  | release (i : Nat)
  | advanceEpoch (i : Nat)
  | deliver (i j : Nat)

inductive Step (num_nodes : Nat) : Net → Act → Net → Prop where
  | read_page (s : Net) {i : Nat} (hi : i < num_nodes) (page : GlobalAddress) (write : Bool) :
      Step num_nodes s (.read_page i page write) (s.commit i ((s.node i).read_page page write).node none)
  | write_page_done (s : Net) {i : Nat} (hi : i < num_nodes) (page : GlobalAddress) :
      Step num_nodes s (.write_page_done i page) (s.commit i ((s.node i).write_page_done page).node none)
  | release (s : Net) {i : Nat} (hi : i < num_nodes) :
      Step num_nodes s (.release i) (s.commit i (s.node i).release.node none)
  | advanceEpoch (s : Net) {i : Nat} (hi : i < num_nodes) :
      Step num_nodes s (.advanceEpoch i) (s.commit i (s.node i).advanceEpoch.node none)
  | deliver {s : Net} {i j : Nat} {msg : CoherenceMessage} {rest : List CoherenceMessage}
      (h : s.channel i j = msg :: rest) :
      Step num_nodes s (.deliver i j)
        ((s.pop i j).commit j ((s.node j).handle_message msg i).node
          (Event.ofHandled j i msg ((s.node j).handle_message msg i).node))

/-- The cluster of `num_nodes` nodes after `start()`. -/
def cluster (num_nodes : Nat) : System Net Act :=
  ⟨fun s => s = ⟨Node.new num_nodes, fun _ _ => [], []⟩, Step num_nodes⟩

/-! ## What a Call Can Do -/

namespace Node

/-- Some page of the directory is exclusive. -/
def HasExclusive (n : Node) : Prop := ∃ key e, n.directory_ key = some e ∧ e.state = .EXCLUSIVE

/-- The call has sent a message of this kind. -/
def Sends (n : Node) (op : CoherenceOp) : Prop := ∃ m ∈ n.outbox, m.2.op = op

/-- What a call on a node with an empty cache can do. -/
structure Effect (n n' : Node) : Prop where
  node_id : n'.node_id_ = n.node_id_
  num_nodes : n'.num_nodes_ = n.num_nodes_
  cache : n'.local_cache_ = []
  targets : ∀ m ∈ n'.outbox, n.hasMsgBuf m.1 = true
  no_ack : ¬n'.Sends .INVAL_ACK
  no_writeback : ¬n'.Sends .WRITEBACK_DATA
  exclusive : n'.HasExclusive → n.HasExclusive ∨ n'.Sends .EXCLUSIVE_GRANT

theorem not_sends_of_outbox {n : Node} (h : n.outbox = []) (op : CoherenceOp) : ¬n.Sends op := by
  rintro ⟨m, hm, -⟩
  rw [h] at hm
  cases hm

/-- A call that sends nothing and leaves the directory. -/
theorem effect_of_silent {n n' : Node} (hid : n'.node_id_ = n.node_id_) (hnum : n'.num_nodes_ = n.num_nodes_)
    (hcache : n'.local_cache_ = []) (hout : n'.outbox = []) (hdir : n'.directory_ = n.directory_) :
    n.Effect n' where
  node_id := hid
  num_nodes := hnum
  cache := hcache
  targets m hm := by
    rw [hout] at hm
    cases hm
  no_ack := not_sends_of_outbox hout _
  no_writeback := not_sends_of_outbox hout _
  exclusive h := by
    obtain ⟨key, e, he, hex⟩ := h
    exact .inl ⟨key, e, hdir ▸ he, hex⟩

section Calls

variable {n : Node} (hcache : n.local_cache_ = []) (hout : n.outbox = [])

include hcache in
/-- Nothing is cached, so `read_page` always asks the home node. -/
theorem read_page_eq (page : GlobalAddress) (write : Bool) :
    n.read_page page write = n.request (pageOf page) write := by
  have hnone : n.find_cached (pageOf page) = none := by simp [find_cached, hcache]
  simp [read_page, hnone]

include hcache hout in
theorem read_page_effect (page : GlobalAddress) (write : Bool) :
    n.Effect (n.read_page page write).node ∧ ¬(n.read_page page write).node.Sends .EXCLUSIVE_GRANT := by
  rw [read_page_eq hcache]
  cases hbuf : n.hasMsgBuf (pageOf page).node_id.toNat with
  | false =>
    rw [request, send_message_of_not_hasMsgBuf hbuf]
    exact ⟨effect_of_silent rfl rfl hcache hout rfl, not_sends_of_outbox hout _⟩
  | true =>
    rw [request, send_message_of_hasMsgBuf hbuf]
    -- the request is the only message
    have hsends : ∀ op, op ≠ .READ_REQ → op ≠ .EXCLUSIVE_REQ → ¬(n.post [((pageOf page).node_id.toNat,
        { op := if write then .EXCLUSIVE_REQ else .READ_REQ
          page_addr := pageOf page
          epoch := n.global_epoch_ })]).Sends op := by
      rintro op hread hex ⟨m, hm, rfl⟩
      simp only [post, hout, List.nil_append, List.mem_singleton] at hm
      subst hm
      cases write
      · exact hread rfl
      · exact hex rfl
    refine ⟨⟨rfl, rfl, hcache, ?_, hsends _ ?_ ?_, hsends _ ?_ ?_, fun h => .inl h⟩, hsends _ ?_ ?_⟩
    · intro m hm
      simp only [post, hout, List.nil_append, List.mem_singleton] at hm
      subst hm
      exact hbuf
    all_goals exact fun h => CoherenceOp.noConfusion h

include hcache hout in
theorem write_page_done_effect (page : GlobalAddress) : n.Effect (n.write_page_done page).node :=
  effect_of_silent rfl rfl (by simp [write_page_done, hcache]) hout rfl

include hcache in
theorem release_eq : n.release = n.advanceEpoch := by
  unfold release
  rw [hcache, releaseLoop, Result.andThen_none, advanceEpoch, ← hcache]

include hcache hout in
theorem advanceEpoch_effect : n.Effect n.advanceEpoch.node := effect_of_silent rfl rfl hcache hout rfl

end Calls

section Handler

variable {n : Node} {msg : CoherenceMessage} {sender : Nat} (hcache : n.local_cache_ = []) (hout : n.outbox = [])

variable {e : DirectoryEntry}

theorem hasExclusive_setEntry {n : Node} {key : UInt64}
    (he : e.state = .EXCLUSIVE → n.HasExclusive) (h : (n.setEntry key e).HasExclusive) : n.HasExclusive := by
  obtain ⟨key', e', hd, hex⟩ := h
  by_cases hk : key' = key
  · subst hk
    simp only [setEntry, Function.update_self, Option.some.injEq] at hd
    subst hd
    exact he hex
  · simp only [setEntry, Function.update_of_ne hk] at hd
    exact ⟨key', e', hd, hex⟩

theorem hasExclusive_of_entryAt {key : UInt64} (h : (n.entryAt key).state = .EXCLUSIVE) : n.HasExclusive := by
  unfold entryAt at h
  cases hd : n.directory_ key with
  | none =>
    rw [hd] at h
    cases h
  | some e =>
    rw [hd] at h
    exact ⟨key, e, hd, h⟩

theorem read_exclusive (h : (e.read sender).state = .EXCLUSIVE) : e.state = .EXCLUSIVE := by
  rw [DirectoryEntry.read_state] at h
  split at h
  · cases h
  · exact h

theorem hasMsgBuf_of_mem_others {p : Nat → Bool} {i : Nat} (h : i ∈ n.others p) : n.hasMsgBuf i = true := by
  simp only [others, List.mem_filter, List.mem_range, decide_eq_true_eq] at h
  simp [hasMsgBuf, h.1, h.2.1]

/-- What the handling of a message on a node with an empty cache can do. -/
structure Handled (n : Node) (msg : CoherenceMessage) (n' : Node) : Prop extends Effect n n' where
  no_request : ¬n'.Sends .EXCLUSIVE_REQ
  grant : n'.Sends .EXCLUSIVE_GRANT → msg.op = .EXCLUSIVE_REQ
  answer : msg.op = .EXCLUSIVE_REQ → n.HasExclusive ∨ n'.Sends .EXCLUSIVE_GRANT

/-- The messages that a handler sends before its answer, and the answers to a read. -/
def IsNotice (op : CoherenceOp) : Prop :=
  op = .WRITEBACK_REQ ∨ op = .INVALIDATE ∨ op = .READ_REPLY ∨ op = .READ_REPLY_DIRTY ∨ op = .BARRIER_LEAVE

theorem not_sends_of_isNotice {n' : Node} (h : ∀ m ∈ n'.outbox, IsNotice m.2.op) {op : CoherenceOp}
    (hop : ¬IsNotice op) : ¬n'.Sends op := by
  rintro ⟨m, hm, rfl⟩
  exact hop (h m hm)

theorem handled_of_isNotice {n' : Node} (hid : n'.node_id_ = n.node_id_) (hnum : n'.num_nodes_ = n.num_nodes_)
    (hcache : n'.local_cache_ = []) (htargets : ∀ m ∈ n'.outbox, n.hasMsgBuf m.1 = true)
    (hops : ∀ m ∈ n'.outbox, IsNotice m.2.op) (hdir : n'.HasExclusive → n.HasExclusive)
    (hanswer : msg.op = .EXCLUSIVE_REQ → n.HasExclusive) : n.Handled msg n' where
  node_id := hid
  num_nodes := hnum
  cache := hcache
  targets := htargets
  no_ack := not_sends_of_isNotice hops (by simp [IsNotice])
  no_writeback := not_sends_of_isNotice hops (by simp [IsNotice])
  exclusive h := .inl (hdir h)
  no_request := not_sends_of_isNotice hops (by simp [IsNotice])
  grant h := (not_sends_of_isNotice hops (by simp [IsNotice]) h).elim
  answer h := .inl (hanswer h)

theorem send_answer (hs : n.hasMsgBuf sender = true) (key : UInt64) (e : DirectoryEntry)
    (l : List (Nat × CoherenceMessage)) (answer : CoherenceMessage) :
    (((n.setEntry key e).post l).send_message sender answer).node =
      (n.setEntry key e).post (l ++ [(sender, answer)]) := by
  have hbuf : ((n.setEntry key e).post l).hasMsgBuf sender = true := hs
  rw [send_message_of_hasMsgBuf hbuf, post_post]

theorem outbox_post (hout : n.outbox = []) (key : UInt64) (e : DirectoryEntry) (l : List (Nat × CoherenceMessage)) :
    ((n.setEntry key e).post l).outbox = l := by
  simp [post, setEntry, hout]

theorem hasMsgBuf_owner (hex : e.state = .EXCLUSIVE) (h : ¬n.Unreachable e) :
    n.hasMsgBuf e.exclusive_owner.toNat = true := by
  cases hbuf : n.hasMsgBuf e.exclusive_owner.toNat with
  | false => exact absurd ⟨hex, hbuf⟩ h
  | true => rfl

include hcache hout in
theorem handleReadReq_handled (hop : msg.op = .READ_REQ) (hs : n.hasMsgBuf sender = true) :
    n.Handled msg (n.handleReadReq msg sender).node := by
  have hreq : msg.op = .EXCLUSIVE_REQ → n.HasExclusive := by simp [hop]
  rw [handleReadReq_eq n msg sender rfl]
  -- if the recorded owner cannot be asked for a write-back, the handler throws before it answers
  by_cases hun : n.Unreachable (n.entryAt msg.key)
  · rw [if_pos hun]
    refine handled_of_isNotice rfl rfl hcache ?_ ?_ (hasExclusive_setEntry hasExclusive_of_entryAt) hreq
    · simp [setEntry, hout]
    · simp [setEntry, hout]
  · rw [if_neg hun, send_answer hs]
    refine handled_of_isNotice rfl rfl hcache ?_ ?_
      (hasExclusive_setEntry fun hex => hasExclusive_of_entryAt (read_exclusive hex)) hreq
    all_goals
      intro m hm
      rw [outbox_post hout, List.mem_append, List.mem_singleton, List.mem_ite_nil_right, List.mem_singleton] at hm
    · rcases hm with ⟨hex, rfl⟩ | rfl
      · exact hasMsgBuf_owner hex hun
      · exact hs
    · rcases hm with ⟨-, rfl⟩ | rfl
      · exact .inl rfl
      · unfold IsNotice
        dsimp only
        split <;> simp

include hcache hout in
theorem handleExclusiveReq_handled (hop : msg.op = .EXCLUSIVE_REQ) (hs : n.hasMsgBuf sender = true) :
    n.Handled msg (n.handleExclusiveReq msg sender).node := by
  have hinv : ∀ e, ∀ m ∈ n.invalidations e, n.hasMsgBuf m.1 = true ∧ IsNotice m.2.op := by
    intro e m hm
    unfold invalidations at hm
    rw [List.mem_ite_nil_right, List.mem_map] at hm
    obtain ⟨-, i, hi, rfl⟩ := hm
    exact ⟨hasMsgBuf_of_mem_others hi, .inr (.inl rfl)⟩
  rw [handleExclusiveReq_eq n msg sender rfl]
  -- here the invalidations have already been sent when it throws
  by_cases hun : n.Unreachable (n.entryAt msg.key) ∧ (n.entryAt msg.key).exclusive_owner.toNat ≠ sender
  · rw [if_pos hun]
    refine handled_of_isNotice rfl rfl hcache ?_ ?_ (hasExclusive_setEntry hasExclusive_of_entryAt)
      fun _ => hasExclusive_of_entryAt hun.1.1
    all_goals
      intro m hm
      rw [outbox_post hout] at hm
    · exact (hinv _ m hm).1
    · exact (hinv _ m hm).2
  · rw [if_neg hun, send_answer hs]
    generalize hn' : (n.setEntry msg.key ((n.entryAt msg.key).grant sender)).post _ = n'
    have hmem : ∀ m ∈ n'.outbox, n.hasMsgBuf m.1 = true ∧ (IsNotice m.2.op ∨ m.2.op = .EXCLUSIVE_GRANT) := by
      intro m hm
      rw [← hn', outbox_post hout, List.mem_append, List.mem_append, List.mem_singleton, List.mem_ite_nil_right,
        List.mem_singleton] at hm
      rcases hm with (hm | ⟨hex, rfl⟩) | rfl
      · exact ⟨(hinv _ m hm).1, .inl (hinv _ m hm).2⟩
      · exact ⟨hasMsgBuf_owner hex.1 fun h => hun ⟨h, hex.2⟩, .inl (.inl rfl)⟩
      · exact ⟨hs, .inr rfl⟩
    -- the grant follows the notices at once, without waiting for an answer to them
    have hgrant : n'.Sends .EXCLUSIVE_GRANT := by
      refine ⟨(sender, ⟨.EXCLUSIVE_GRANT, msg.page_addr, ((n.entryAt msg.key).grant sender).epoch, 0⟩), ?_, rfl⟩
      rw [← hn', outbox_post hout]
      exact List.mem_append_right _ (List.mem_singleton_self _)
    have hsends : ∀ op, ¬IsNotice op → op ≠ .EXCLUSIVE_GRANT → ¬n'.Sends op := by
      rintro op hnotice hne ⟨m, hm, rfl⟩
      exact (hmem m hm).2.elim hnotice hne
    have hcache' : n'.local_cache_ = [] := by rw [← hn']; exact hcache
    exact
      { node_id := by rw [← hn']; rfl
        num_nodes := by rw [← hn']; rfl
        cache := hcache'
        targets := fun m hm => (hmem m hm).1
        no_ack := hsends _ (by simp [IsNotice]) (by simp)
        no_writeback := hsends _ (by simp [IsNotice]) (by simp)
        exclusive := fun _ => .inr hgrant
        no_request := hsends _ (by simp [IsNotice]) (by simp)
        grant := fun _ => hop
        answer := fun _ => .inr hgrant }

include hcache hout in
theorem handleBarrierEnter_handled (hop : msg.op = .BARRIER_ENTER) : n.Handled msg n.handleBarrierEnter.node := by
  have hreq : msg.op = .EXCLUSIVE_REQ → n.HasExclusive := by simp [hop]
  unfold handleBarrierEnter
  dsimp only
  split
  · rw [sendToOthers_eq, Result.andThen_none]
    refine handled_of_isNotice rfl rfl hcache ?_ ?_ id hreq
    all_goals
      intro m hm
      simp only [post, hout, List.nil_append, List.mem_map] at hm
      obtain ⟨i, hi, rfl⟩ := hm
    · exact hasMsgBuf_of_mem_others (n := n) hi
    · exact .inr (.inr (.inr (.inr rfl)))
  · refine handled_of_isNotice rfl rfl hcache ?_ ?_ id hreq
    · simp [hout]
    · simp [hout]

include hcache hout in
theorem handle_message_handled (hs : n.hasMsgBuf sender = true) :
    n.Handled msg (n.handle_message msg sender).node := by
  -- the kinds that neither send nor touch an exclusive entry
  have hsilent : ∀ {n' : Node}, n'.node_id_ = n.node_id_ → n'.num_nodes_ = n.num_nodes_ → n'.local_cache_ = [] →
      n'.outbox = [] → (n'.HasExclusive → n.HasExclusive) → msg.op ≠ .EXCLUSIVE_REQ → n.Handled msg n' := by
    intro n' hid hnum hcache' hout' hdir hne
    refine handled_of_isNotice hid hnum hcache' ?_ ?_ hdir fun h => absurd h hne
    · simp [hout']
    · simp [hout']
  unfold handle_message
  cases hop : msg.op with
  | READ_REQ => exact handleReadReq_handled hcache hout hop hs
  | EXCLUSIVE_REQ => exact handleExclusiveReq_handled hcache hout hop hs
  | BARRIER_ENTER => exact handleBarrierEnter_handled hcache hout hop
  | WRITEBACK_DATA =>
    have hback : (n.entryAt msg.key).writeback.state = .EXCLUSIVE → n.HasExclusive := fun h => by cases h
    exact hsilent rfl rfl hcache hout (hasExclusive_setEntry hback) (by simp [hop])
  | _ => exact hsilent rfl rfl hcache hout id (by simp [hop])

end Handler

end Node

/-! ## Steps of the Network -/

section Commit

variable {s : Net} {i a b : Nat} {n : Node} {handled : Option Event} {m : CoherenceMessage} {e : Event}

theorem mem_channel_commit :
    m ∈ (s.commit i n handled).channel a b ↔ m ∈ s.channel a b ∨ a = i ∧ (b, m) ∈ n.outbox := by
  simp only [Net.commit, List.mem_append]
  refine or_congr_right ?_
  by_cases ha : a = i
  · rw [if_pos ha, List.mem_filterMap, and_iff_right ha]
    constructor
    · rintro ⟨⟨t, m'⟩, hm, heq⟩
      split at heq
      · next ht =>
        cases heq
        exact ht ▸ hm
      · cases heq
    · intro hm
      exact ⟨(b, m), hm, if_pos rfl⟩
  · simp [ha]

theorem mem_log_commit :
    e ∈ (s.commit i n handled).log ↔ e ∈ s.log ∨ handled = some e ∨ ∃ m ∈ n.outbox, Event.ofSent i m = some e := by
  simp [Net.commit]

theorem commit_node_self : (s.commit i n handled).node i = { n with outbox := [] } := Function.update_self ..

theorem commit_node_of_ne (h : a ≠ i) : (s.commit i n handled).node a = s.node a := Function.update_of_ne h ..

/-- What holds of the new node and of all others holds of every node. -/
theorem commit_node_forall {P : Nat → Node → Prop} (hi : P i { n with outbox := [] }) (h : ∀ k, P k (s.node k)) (k : Nat) :
    P k ((s.commit i n handled).node k) := by
  by_cases hk : k = i
  · rw [hk, commit_node_self]
    exact hi
  · rw [commit_node_of_ne hk]
    exact h k

theorem mem_channel_of_mem_pop {j : Nat} (h : m ∈ (s.pop i j).channel a b) : m ∈ s.channel a b := by
  simp only [Net.pop] at h
  split at h
  · exact List.mem_of_mem_tail h
  · exact h

theorem mem_pop_or_eq {j : Nat} {msg : CoherenceMessage} {rest : List CoherenceMessage} (hc : s.channel i j = msg :: rest)
    (h : m ∈ s.channel a b) : m ∈ (s.pop i j).channel a b ∨ m = msg := by
  simp only [Net.pop]
  split
  · next hab =>
    rw [hab.1, hab.2, hc] at h ⊢
    exact (List.mem_cons.mp h).symm
  · exact .inl h

end Commit

/-- Nobody has a page in its cache, and nobody has acknowledged an invalidation or
    written a page back. -/
structure Quiet (num : Nat) (s : Net) : Prop where
  node_id : ∀ i, (s.node i).node_id_ = i
  num_nodes : ∀ i, (s.node i).num_nodes_ = num
  cache : ∀ i, (s.node i).local_cache_ = []
  outbox : ∀ i, (s.node i).outbox = []
  ends : ∀ i j, ∀ m ∈ s.channel i j, i ≠ j ∧ i < num ∧ j < num
  no_ack : ∀ i j, ∀ m ∈ s.channel i j, m.op ≠ .INVAL_ACK
  no_writeback : ∀ i j, ∀ m ∈ s.channel i j, m.op ≠ .WRITEBACK_DATA
  not_acked : ∀ home i page, .acked home i page ∉ s.log
  not_wroteBack : ∀ home i page, .wroteBack home i page ∉ s.log

namespace Quiet

variable {num : Nat} {s s' : Net} {act : Act}

theorem hasMsgBuf_iff (h : Quiet num s) {i j : Nat} :
    (s.node i).hasMsgBuf j = true ↔ j < num ∧ j ≠ i := by
  simp [Node.hasMsgBuf, h.node_id, h.num_nodes]

theorem of_pop (h : Quiet num s) (i j : Nat) : Quiet num (s.pop i j) :=
  { h with
    ends := fun a b m hm => h.ends a b m (mem_channel_of_mem_pop hm)
    no_ack := fun a b m hm => h.no_ack a b m (mem_channel_of_mem_pop hm)
    no_writeback := fun a b m hm => h.no_writeback a b m (mem_channel_of_mem_pop hm) }

theorem commit (h : Quiet num s) {i : Nat} (hi : i < num) {n : Node} (heff : (s.node i).Effect n)
    {handled : Option Event} (hack : ∀ home k page, handled ≠ some (.acked home k page))
    (hback : ∀ home k page, handled ≠ some (.wroteBack home k page)) : Quiet num (s.commit i n handled) where
  node_id := commit_node_forall (P := fun k n => n.node_id_ = k) (heff.node_id.trans (h.node_id i)) h.node_id
  num_nodes := commit_node_forall (P := fun _ n => n.num_nodes_ = num) (heff.num_nodes.trans (h.num_nodes i))
    h.num_nodes
  cache := commit_node_forall (P := fun _ n => n.local_cache_ = []) heff.cache h.cache
  outbox := commit_node_forall (P := fun _ n => n.outbox = []) rfl h.outbox
  ends a b m hm := by
    rcases mem_channel_commit.mp hm with hm | ⟨rfl, hsent⟩
    · exact h.ends a b m hm
    · obtain ⟨hb, hne⟩ := h.hasMsgBuf_iff.mp (heff.targets _ hsent)
      exact ⟨hne.symm, hi, hb⟩
  no_ack a b m hm := by
    rcases mem_channel_commit.mp hm with hm | ⟨-, hsent⟩
    · exact h.no_ack a b m hm
    · exact fun hop => heff.no_ack ⟨_, hsent, hop⟩
  no_writeback a b m hm := by
    rcases mem_channel_commit.mp hm with hm | ⟨-, hsent⟩
    · exact h.no_writeback a b m hm
    · exact fun hop => heff.no_writeback ⟨_, hsent, hop⟩
  not_acked home k page hm := by
    rcases mem_log_commit.mp hm with hm | hm | ⟨m, -, hm⟩
    · exact h.not_acked home k page hm
    · exact hack home k page hm
    · obtain ⟨⟨⟩, -⟩ | ⟨⟨⟩, -⟩ | ⟨⟨⟩⟩ := Event.ofSent_eq hm
  not_wroteBack home k page hm := by
    rcases mem_log_commit.mp hm with hm | hm | ⟨m, -, hm⟩
    · exact h.not_wroteBack home k page hm
    · exact hback home k page hm
    · obtain ⟨⟨⟩, -⟩ | ⟨⟨⟩, -⟩ | ⟨⟨⟩⟩ := Event.ofSent_eq hm

/-- A step is a call, which grants nothing, or the handling of the first message of a
    channel. -/
theorem step_cases (h : Quiet num s) (hs : Step num s act s') :
    (∃ i n, i < num ∧ (s.node i).Effect n ∧ ¬n.Sends .EXCLUSIVE_GRANT ∧ s' = s.commit i n none) ∨
    ∃ i j msg rest n, s.channel i j = msg :: rest ∧ (s.node j).Handled msg n ∧
      s' = (s.pop i j).commit j n (Event.ofHandled j i msg n) := by
  cases hs with
  | @read_page i hi page write =>
    obtain ⟨heff, hgrant⟩ := Node.read_page_effect (h.cache i) (h.outbox i) page write
    exact .inl ⟨i, _, hi, heff, hgrant, rfl⟩
  | @write_page_done i hi page =>
    exact .inl ⟨i, _, hi, Node.write_page_done_effect (h.cache i) (h.outbox i) page,
      Node.not_sends_of_outbox (h.outbox i) _, rfl⟩
  | @release i hi =>
    rw [Node.release_eq (h.cache i)]
    exact .inl ⟨i, _, hi, Node.advanceEpoch_effect (h.cache i) (h.outbox i),
      Node.not_sends_of_outbox (h.outbox i) _, rfl⟩
  | @advanceEpoch i hi =>
    exact .inl ⟨i, _, hi, Node.advanceEpoch_effect (h.cache i) (h.outbox i),
      Node.not_sends_of_outbox (h.outbox i) _, rfl⟩
  | @deliver i j msg rest hc =>
    obtain ⟨hne, hi, -⟩ := h.ends i j msg (hc ▸ List.mem_cons_self)
    have hbuf := h.hasMsgBuf_iff.mpr ⟨hi, hne⟩
    exact .inr ⟨i, j, msg, rest, _, hc, Node.handle_message_handled (h.cache j) (h.outbox j) hbuf, rfl⟩

theorem step (h : Quiet num s) (hs : Step num s act s') : Quiet num s' := by
  rcases h.step_cases hs with ⟨i, n, hi, heff, -, rfl⟩ | ⟨i, j, msg, rest, n, hc, hn, rfl⟩
  · refine h.commit hi heff ?_ ?_
    all_goals exact fun _ _ _ h => by cases h
  · -- to be handled, an acknowledgement would have to be in a channel first
    have hmsg : msg ∈ s.channel i j := hc ▸ List.mem_cons_self
    refine (h.of_pop i j).commit (h.ends i j msg hmsg).2.2 hn.toEffect ?_ ?_
    · intro home k page heq
      unfold Event.ofHandled at heq
      split at heq <;> cases heq
      next hop => exact h.no_ack i j msg hmsg hop
    · intro home k page heq
      unfold Event.ofHandled at heq
      split at heq <;> cases heq
      next hop => exact h.no_writeback i j msg hmsg hop

end Quiet

theorem quiet_of_reachable {num : Nat} {s : Net} (h : (cluster num).Reachable s) : Quiet num s := by
  refine h.invariant (I := Quiet num) ?_ ?_
  · rintro s rfl
    constructor <;> simp [Node.new]
  · intro s act s' hq _ hs
    exact hq.step hs

/-! ## Single Writer -/

/-- Whenever a home grants a page, every other node that it has answered for the page
    has since acknowledged an invalidation of the page or, if it was the owner, has
    written the page back. -/
def SingleWriter (log : List Event) : Prop :=
  ∀ before after home s page, log = before ++ .answered home s page .EXCLUSIVE_GRANT :: after →
    ∀ earlier since i op, before = earlier ++ .answered home i page op :: since → i ≠ s →
      .acked home i page ∈ since ∨ op = .EXCLUSIVE_GRANT ∧ .wroteBack home i page ∈ since

/-- Whenever a home grants a page, it has answered no other node for the page. -/
def Alone (log : List Event) : Prop :=
  ∀ before after home s page, log = before ++ .answered home s page .EXCLUSIVE_GRANT :: after →
    ∀ i op, .answered home i page op ∈ before → i = s

/-- **Single writer**: since no node ever gives a page up, the property holds of
    exactly those runs in which a page is granted only while no other node has been
    answered for it. -/
theorem single_writer_iff {num : Nat} {s : Net} (h : (cluster num).Reachable s) :
    SingleWriter s.log ↔ Alone s.log := by
  have hq := quiet_of_reachable h
  constructor
  · intro hw before after home t page hlog i op hmem
    by_contra hne
    obtain ⟨earlier, since, hbefore⟩ := List.append_of_mem hmem
    -- neither of the two ways to give the page up is in the log
    have hsub : ∀ e ∈ since, e ∈ s.log := fun e he => by simp [hlog, hbefore, he]
    rcases hw before after home t page hlog earlier since i op hbefore hne with hack | ⟨-, hback⟩
    · exact hq.not_acked _ _ _ (hsub _ hack)
    · exact hq.not_wroteBack _ _ _ (hsub _ hback)
  · intro ha before after home t page hlog earlier since i op hbefore hne
    have hmem : .answered home i page op ∈ before := by simp [hbefore]
    exact absurd (ha before after home t page hlog i op hmem) hne

theorem alone_of_answered {log : List Event} {k : Nat} (h : ∀ home i page op, .answered home i page op ∈ log → i = k) :
    Alone log := by
  rintro before after home s page rfl i op hmem
  have hi : i = k := h home i page op (List.mem_append_left _ hmem)
  have hs : s = k := h home s page _ (List.mem_append_right _ List.mem_cons_self)
  exact hi.trans hs.symm

/-- Node 1 reads a page of node 0 and then asks for exclusive access. -/
theorem single_writer_alone : ∃ s, (cluster 3).Reachable s ∧
    .answered 0 1 ⟨0, 0, 0⟩ .EXCLUSIVE_GRANT ∈ s.log ∧ SingleWriter s.log := by
  have hinit : (cluster 3).Reachable _ := .init rfl
  have hread := hinit.next (.read_page _ (i := 1) (by decide) ⟨0, 0, 0⟩ false)
  have hreply := hread.next (.deliver (i := 1) (j := 0) rfl)
  have hwrite := hreply.next (.read_page _ (i := 1) (by decide) ⟨0, 0, 0⟩ true)
  have hgrant := hwrite.next (.deliver (i := 1) (j := 0) rfl)
  refine ⟨_, hgrant, by decide, (single_writer_iff hgrant).mpr (alone_of_answered (k := 1) ?_)⟩
  intro home i page op hmem
  change _ ∈ [Event.requested 1 ⟨0, 0, 0⟩ false, .answered 0 1 ⟨0, 0, 0⟩ .READ_REPLY, .requested 1 ⟨0, 0, 0⟩ true,
    .answered 0 1 ⟨0, 0, 0⟩ .EXCLUSIVE_GRANT] at hmem
  simp only [List.mem_cons, Event.answered.injEq, reduceCtorEq, false_or, List.not_mem_nil, or_false] at hmem
  rcases hmem with ⟨-, hi, -⟩ | ⟨-, hi, -⟩
  · exact hi
  · exact hi

/-- Node 1 reads a page of node 0, then node 2 is granted the page while the
    invalidation is still on its way to node 1. -/
theorem grant_without_ack : ∃ s, (cluster 3).Reachable s ∧ ¬SingleWriter s.log := by
  have hinit : (cluster 3).Reachable _ := .init rfl
  have hread := hinit.next (.read_page _ (i := 1) (by decide) ⟨0, 0, 0⟩ false)
  have hreply := hread.next (.deliver (i := 1) (j := 0) rfl)
  have hwrite := hreply.next (.read_page _ (i := 2) (by decide) ⟨0, 0, 0⟩ true)
  have hgrant := hwrite.next (.deliver (i := 2) (j := 0) rfl)
  refine ⟨_, hgrant, fun hw => ?_⟩
  have hlog := hw [.requested 1 ⟨0, 0, 0⟩ false, .answered 0 1 ⟨0, 0, 0⟩ .READ_REPLY, .requested 2 ⟨0, 0, 0⟩ true] []
    0 2 ⟨0, 0, 0⟩ rfl [.requested 1 ⟨0, 0, 0⟩ false] [.requested 2 ⟨0, 0, 0⟩ true] 1 .READ_REPLY rfl (by decide)
  simp at hlog

/-! ## Agreement at Rest -/

/-- No coherence message is in flight. -/
def Rest (s : Net) : Prop := ∀ i j, s.channel i j = []

/-- The state of a page in the cache of a node. -/
def Net.cached (s : Net) (i : Nat) (page : GlobalAddress) : Option CoherenceState :=
  ((s.node i).find_cached page).map (·.local_state)

/-- The entry of a page at its home. -/
def Net.entry (s : Net) (page : GlobalAddress) : Option DirectoryEntry :=
  (s.node page.node_id.toNat).directory_ (directory_key page.region_id (page_index page.offset))

/-- The caches agree with the directories, and every handled grant has left the page
    exclusive in the cache. -/
structure Agreement (s : Net) : Prop where
  exclusive : ∀ i page, i ≠ page.node_id.toNat → (s.cached i page = some .EXCLUSIVE ↔
    ∃ e, s.entry page = some e ∧ e.state = .EXCLUSIVE ∧ e.exclusive_owner.toNat = i)
  shared : ∀ i page, i ≠ page.node_id.toNat → s.cached i page = some .SHARED →
    ∃ e, s.entry page = some e ∧ e.has_sharer i = true
  granted : ∀ i page state, .granted i page state ∈ s.log → state = some .EXCLUSIVE

/-- Somebody has asked for exclusive access. -/
def Asked (s : Net) : Prop := ∃ i page, .requested i page true ∈ s.log

/-- A message of this kind is in flight. -/
def InFlight (s : Net) (op : CoherenceOp) : Prop := ∃ i j, ∃ m ∈ s.channel i j, m.op = op

/-- A grant is in flight or has been handled. -/
def Granted (s : Net) : Prop := InFlight s .EXCLUSIVE_GRANT ∨ ∃ i page state, .granted i page state ∈ s.log

/-- A request for exclusive access leads to a grant, and only such a request does. -/
structure Traced (s : Net) : Prop where
  not_cached : ∀ i page state, .granted i page state ∈ s.log → state = none
  exclusive : ∀ i, (s.node i).HasExclusive → Granted s
  answered : Asked s → Granted s ∨ InFlight s .EXCLUSIVE_REQ
  request : InFlight s .EXCLUSIVE_REQ → Asked s
  grant : Granted s → Asked s

section Trace

variable {num : Nat} {s s' : Net} {i : Nat} {n : Node} {handled : Option Event} {op : CoherenceOp}

theorem InFlight.commit (h : InFlight s op) : InFlight (s.commit i n handled) op := by
  obtain ⟨a, b, m, hm, hop⟩ := h
  exact ⟨a, b, m, mem_channel_commit.mpr (.inl hm), hop⟩

theorem inFlight_of_sends (h : n.Sends op) : InFlight (s.commit i n handled) op := by
  obtain ⟨m, hm, hop⟩ := h
  exact ⟨i, m.1, m.2, mem_channel_commit.mpr (.inr ⟨rfl, hm⟩), hop⟩

theorem inFlight_commit (h : InFlight (s.commit i n handled) op) : InFlight s op ∨ n.Sends op := by
  obtain ⟨a, b, m, hm, hop⟩ := h
  rcases mem_channel_commit.mp hm with hm | ⟨-, hm⟩
  · exact .inl ⟨a, b, m, hm, hop⟩
  · exact .inr ⟨_, hm, hop⟩

theorem inFlight_of_pop {j : Nat} (h : InFlight (s.pop i j) op) : InFlight s op := by
  obtain ⟨a, b, m, hm, hop⟩ := h
  exact ⟨a, b, m, mem_channel_of_mem_pop hm, hop⟩

theorem Asked.commit (h : Asked s) : Asked (s.commit i n handled) := by
  obtain ⟨k, page, hk⟩ := h
  exact ⟨k, page, mem_log_commit.mpr (.inl hk)⟩

theorem asked_of_sends (h : n.Sends .EXCLUSIVE_REQ) : Asked (s.commit i n handled) := by
  obtain ⟨⟨target, m⟩, hm, hop⟩ := h
  refine ⟨i, m.page_addr, mem_log_commit.mpr (.inr (.inr ⟨_, hm, ?_⟩))⟩
  dsimp only at hop
  simp [Event.ofSent, hop]

theorem asked_commit (hh : ∀ k page write, handled ≠ some (.requested k page write))
    (h : Asked (s.commit i n handled)) : Asked s ∨ n.Sends .EXCLUSIVE_REQ := by
  obtain ⟨k, page, hk⟩ := h
  rcases mem_log_commit.mp hk with hk | hk | ⟨m, hm, hk⟩
  · exact .inl ⟨k, page, hk⟩
  · exact absurd hk (hh k page true)
  · obtain ⟨⟨⟩, -⟩ | ⟨⟨⟩, hop⟩ | ⟨⟨⟩⟩ := Event.ofSent_eq hk
    exact .inr ⟨m, hm, hop⟩

theorem granted_mem_commit {k : Nat} {page : GlobalAddress} {state : Option CoherenceState}
    (h : .granted k page state ∈ (s.commit i n handled).log) :
    .granted k page state ∈ s.log ∨ handled = some (.granted k page state) := by
  rcases mem_log_commit.mp h with h | h | ⟨m, -, h⟩
  · exact .inl h
  · exact .inr h
  · obtain ⟨⟨⟩, -⟩ | ⟨⟨⟩, -⟩ | ⟨⟨⟩⟩ := Event.ofSent_eq h

theorem Granted.commit (h : Granted s) : Granted (s.commit i n handled) := by
  rcases h with h | ⟨k, page, state, h⟩
  · exact .inl h.commit
  · exact .inr ⟨k, page, state, mem_log_commit.mpr (.inl h)⟩

theorem hasExclusive_commit {k : Nat} (heff : (s.node i).Effect n)
    (h : ((s.commit i n handled).node k).HasExclusive) : (s.node k).HasExclusive ∨ n.Sends .EXCLUSIVE_GRANT := by
  by_cases hk : k = i
  · subst hk
    rw [commit_node_self] at h
    exact heff.exclusive h
  · rw [commit_node_of_ne hk] at h
    exact .inl h

/-- A call grants nothing; it may only ask. -/
theorem Traced.call (h : Traced s) (heff : (s.node i).Effect n) (hgrant : ¬n.Sends .EXCLUSIVE_GRANT) :
    Traced (s.commit i n none) where
  not_cached k page state hk := by
    rcases granted_mem_commit hk with hk | ⟨⟨⟩⟩
    exact h.not_cached k page state hk
  exclusive k hk := (h.exclusive k ((hasExclusive_commit heff hk).resolve_right hgrant)).commit
  answered hasked := by
    rcases asked_commit (by simp) hasked with hasked | hsends
    · exact (h.answered hasked).imp Granted.commit InFlight.commit
    · exact .inr (inFlight_of_sends hsends)
  request hreq := by
    rcases inFlight_commit hreq with hreq | hsends
    · exact (h.request hreq).commit
    · exact asked_of_sends hsends
  grant hg := by
    refine (h.grant ?_).commit
    rcases hg with hg | ⟨k, page, state, hk⟩
    · exact .inl ((inFlight_commit hg).resolve_right hgrant)
    · exact .inr ⟨k, page, state, (granted_mem_commit hk).resolve_right (by simp)⟩

section Deliver

variable {j : Nat} {msg : CoherenceMessage} {rest : List CoherenceMessage} (hc : s.channel i j = msg :: rest)

include hc

theorem inFlight_pop_or_eq (h : InFlight s op) : InFlight (s.pop i j) op ∨ msg.op = op := by
  obtain ⟨a, b, m, hm, rfl⟩ := h
  rcases mem_pop_or_eq hc hm with hm | rfl
  · exact .inl ⟨a, b, m, hm, rfl⟩
  · exact .inr rfl

theorem inFlight_head (hop : msg.op = op) : InFlight s op := ⟨i, j, msg, hc ▸ List.mem_cons_self, hop⟩

theorem Granted.deliver (h : Granted s) : Granted ((s.pop i j).commit j n (Event.ofHandled j i msg n)) := by
  rcases h with h | ⟨k, page, state, h⟩
  · rcases inFlight_pop_or_eq hc h with h | hop
    · exact .inl h.commit
    · exact .inr ⟨j, msg.page_addr, _, mem_log_commit.mpr (.inr (.inl (by rw [Event.ofHandled, hop])))⟩
  · exact .inr ⟨k, page, state, mem_log_commit.mpr (.inl h)⟩

theorem Traced.deliver (h : Traced s) (hn : (s.node j).Handled msg n) :
    Traced ((s.pop i j).commit j n (Event.ofHandled j i msg n)) where
  not_cached k page state hk := by
    rcases granted_mem_commit hk with hk | hk
    · exact h.not_cached k page state hk
    · -- the grant is handled on a node whose cache is empty
      unfold Event.ofHandled at hk
      split at hk <;> cases hk
      simp [Node.find_cached, hn.cache]
  exclusive k hk := by
    rcases hasExclusive_commit (s := s.pop i j) hn.toEffect hk with hk | hsends
    · exact (h.exclusive k hk).deliver hc
    · -- an entry becomes exclusive together with a grant
      exact .inl (inFlight_of_sends hsends)
  answered hasked := by
    have hnone : ∀ k page write, Event.ofHandled j i msg n ≠ some (.requested k page write) := by
      intro k page write heq
      unfold Event.ofHandled at heq
      split at heq <;> cases heq
    have hold : Asked s := (asked_commit hnone hasked).resolve_right hn.no_request
    rcases h.answered hold with hg | hreq
    · exact .inl (hg.deliver hc)
    · rcases inFlight_pop_or_eq hc hreq with hreq | hop
      · exact .inr hreq.commit
      · -- the request is answered now, unless the page had an owner
        rcases hn.answer hop with hex | hsends
        · exact .inl ((h.exclusive j hex).deliver hc)
        · exact .inl (.inl (inFlight_of_sends hsends))
  request hreq := by
    have hold : InFlight (s.pop i j) .EXCLUSIVE_REQ := (inFlight_commit hreq).resolve_right hn.no_request
    exact (h.request (inFlight_of_pop hold)).commit (s := s.pop i j)
  grant hg := by
    suffices hasked : Asked s from hasked.commit (s := s.pop i j)
    rcases hg with hg | ⟨k, page, state, hk⟩
    · rcases inFlight_commit hg with hg | hsends
      · exact h.grant (.inl (inFlight_of_pop hg))
      · -- a grant is the answer to a request that was in flight
        exact h.request (inFlight_head hc (hn.grant hsends))
    · rcases granted_mem_commit hk with hk | hk
      · exact h.grant (.inr ⟨k, page, state, hk⟩)
      · unfold Event.ofHandled at hk
        split at hk <;> cases hk
        next hop => exact h.grant (.inl (inFlight_head hc hop))

end Deliver

end Trace

theorem traced_of_reachable {num : Nat} {s : Net} (h : (cluster num).Reachable s) : Traced s := by
  refine (h.invariant (I := fun s => Quiet num s ∧ Traced s) ?_ ?_).2
  · rintro s rfl
    refine ⟨quiet_of_reachable (.init rfl), ?_⟩
    constructor <;> simp [Node.new, Node.HasExclusive, Granted, Asked, InFlight]
  · rintro s act s' ⟨hq, ht⟩ - hs
    refine ⟨hq.step hs, ?_⟩
    rcases hq.step_cases hs with ⟨i, n, -, heff, hgrant, rfl⟩ | ⟨i, j, msg, rest, n, hc, hn, rfl⟩
    · exact ht.call heff hgrant
    · exact ht.deliver hc hn

/-- **Agreement at rest** holds exactly if nobody has asked for exclusive access:
    such a request is granted, and the grant has no handler that caches the page. -/
theorem agreement_iff {num : Nat} {s : Net} (h : (cluster num).Reachable s) (hrest : Rest s) :
    Agreement s ↔ ∀ i page, .requested i page true ∉ s.log := by
  have hq := quiet_of_reachable h
  have ht := traced_of_reachable h
  have hflight : ∀ op, ¬InFlight s op := by
    rintro op ⟨i, j, m, hm, -⟩
    rw [hrest i j] at hm
    cases hm
  have hcached : ∀ i page, s.cached i page = none := fun i page => by
    simp [Net.cached, Node.find_cached, hq.cache]
  constructor
  · intro ha i page hasked
    have hg : Granted s := (ht.answered ⟨i, page, hasked⟩).resolve_right (hflight _)
    obtain ⟨k, page', state, hk⟩ := hg.resolve_left (hflight _)
    -- the cache said nothing when the grant was handled
    have hsome := ha.granted k page' state hk
    rw [ht.not_cached k page' state hk] at hsome
    cases hsome
  · intro hnone
    have hg : ¬Granted s := fun hg => by
      obtain ⟨i, page, hasked⟩ := ht.grant hg
      exact hnone i page hasked
    -- without a grant no entry is exclusive, so both sides are false
    refine ⟨fun i page _ => ?_, fun i page _ hshared => ?_, fun i page state hk => ?_⟩
    · rw [hcached]
      refine iff_of_false (by simp) ?_
      rintro ⟨e, he, hex, -⟩
      exact hg (ht.exclusive _ ⟨_, e, he, hex⟩)
    · rw [hcached] at hshared
      cases hshared
    · exact absurd (.inr ⟨i, page, state, hk⟩) hg

theorem Quiet.rest {num : Nat} {s : Net} (h : Quiet num s) (hnil : ∀ i < num, ∀ j < num, s.channel i j = []) :
    Rest s := by
  intro i j
  rw [List.eq_nil_iff_forall_not_mem]
  intro m hm
  obtain ⟨-, hi, hj⟩ := h.ends i j m hm
  rw [hnil i hi j hj] at hm
  cases hm

/-- Node 1 reads a page of node 2, and nothing is in flight any more. -/
theorem agreement_after_read : ∃ s, (cluster 3).Reachable s ∧ .answered 2 1 ⟨2, 0, 0⟩ .READ_REPLY ∈ s.log ∧
    Rest s ∧ Agreement s := by
  have hinit : (cluster 3).Reachable _ := .init rfl
  have hread := hinit.next (.read_page _ (i := 1) (by decide) ⟨2, 0, 0⟩ false)
  have hreply := hread.next (.deliver (i := 1) (j := 2) rfl)
  have hdone := hreply.next (.deliver (i := 2) (j := 1) rfl)
  have hrest := (quiet_of_reachable hdone).rest (by decide)
  refine ⟨_, hdone, by decide, hrest, (agreement_iff hdone hrest).mpr fun i page hmem => ?_⟩
  change _ ∈ [Event.requested 1 ⟨2, 0, 0⟩ false, .answered 2 1 ⟨2, 0, 0⟩ .READ_REPLY] at hmem
  simp at hmem

/-- Node 1 has been granted a page of node 2 and has handled the grant. Nothing is in
    flight, the home has recorded node 0 as the owner, and no node has the page. -/
theorem grant_not_cached : ∃ s, (cluster 3).Reachable s ∧ Rest s ∧ .granted 1 ⟨2, 0, 0⟩ none ∈ s.log ∧
    (∃ e, s.entry ⟨2, 0, 0⟩ = some e ∧ e.state = .EXCLUSIVE ∧ e.exclusive_owner = 0) ∧ ¬Agreement s := by
  have hinit : (cluster 3).Reachable _ := .init rfl
  have hwrite := hinit.next (.read_page _ (i := 1) (by decide) ⟨2, 0, 0⟩ true)
  have hgrant := hwrite.next (.deliver (i := 1) (j := 2) rfl)
  have hdone := hgrant.next (.deliver (i := 2) (j := 1) rfl)
  refine ⟨_, hdone, (quiet_of_reachable hdone).rest (by decide), by decide, ⟨_, rfl, rfl, rfl⟩, fun ha => ?_⟩
  have hsome := ha.granted 1 ⟨2, 0, 0⟩ none (by decide)
  cases hsome

end Mccl.Coherence
