import Mccl.Dmem.AddressResolution

/-! # The Coherence Protocol of a Node

    Model of `CoherenceProtocol` and `CoherenceDirectory` (`coherence/`): the
    directory of a home node, the local cache, and the calls that send and handle
    messages.

    * A message is sent only to a node that has a message buffer, otherwise the
      call throws; what it has done until then stays.
    * A grant writes `exclusive_owner` and then clears it together with the mask, so
      that the recorded owner is always node 0.
    * `directory_exact`: the relation between the state, the mask and the owner of an
      entry survives a message exactly if it is not a read of an exclusive page by
      another than its owner, not a grant to another node than 0, and not a
      write-back of a page with sharers. -/

namespace Mccl.Coherence

open Dmem

/-! ## Messages -/

inductive CoherenceOp where
  | READ_REQ
  | READ_REPLY
  | READ_REPLY_DIRTY
  | EXCLUSIVE_REQ
  | EXCLUSIVE_GRANT
  | EXCLUSIVE_DENY
  | INVALIDATE
  | INVAL_ACK
  | WRITEBACK_REQ
  | WRITEBACK_DATA
  | WRITEBACK_ACK
  | BARRIER_ENTER
  | BARRIER_LEAVE
deriving DecidableEq

structure CoherenceMessage where
  op : CoherenceOp
  page_addr : GlobalAddress := ⟨0, 0, 0⟩
  epoch : UInt64 := 0
  sender_seq : UInt64 := 0
deriving DecidableEq

def COHERENCE_PAGE_SIZE : UInt64 := 64 * 1024

def page_align_down (offset : UInt64) : UInt64 := offset &&& ~~~(COHERENCE_PAGE_SIZE - 1)

def page_index (offset : UInt64) : UInt64 := offset / COHERENCE_PAGE_SIZE

/-! ## The Directory -/

inductive CoherenceState where
  | UNCACHED
  | SHARED
  | EXCLUSIVE
deriving DecidableEq

structure DirectoryEntry where
  state : CoherenceState := .UNCACHED
  sharers : BitVec 8 := 0
  exclusive_owner : UInt8 := 0
  epoch : UInt64 := 0
deriving DecidableEq

namespace DirectoryEntry

def has_sharer (e : DirectoryEntry) (node_id : Nat) : Bool := e.sharers.getLsbD node_id

def add_sharer (e : DirectoryEntry) (node_id : Nat) : DirectoryEntry :=
  { e with sharers := e.sharers ||| BitVec.twoPow 8 node_id }

def clear_all_sharers (e : DirectoryEntry) : DirectoryEntry := { e with sharers := 0, exclusive_owner := 0 }

/-- The entry after a `READ_REQ`. -/
def read (e : DirectoryEntry) (sender : Nat) : DirectoryEntry :=
  let e := e.add_sharer sender
  let e := if e.state = .UNCACHED then { e with state := .SHARED } else e
  { e with epoch := e.epoch + 1 }

/-- The entry after an `EXCLUSIVE_REQ`: the owner is set and cleared again. -/
def grant (e : DirectoryEntry) (sender : Nat) : DirectoryEntry :=
  let e := { e with state := .EXCLUSIVE, exclusive_owner := UInt8.ofNat sender }
  let e := e.clear_all_sharers.add_sharer sender
  { e with epoch := e.epoch + 1 }

/-- The entry after a `WRITEBACK_DATA`. -/
def writeback (e : DirectoryEntry) : DirectoryEntry := { e with state := .UNCACHED, epoch := e.epoch + 1 }

variable (e : DirectoryEntry) (sender : Nat)

@[simp] theorem read_state : (e.read sender).state = if e.state = .UNCACHED then .SHARED else e.state := by
  by_cases h : e.state = .UNCACHED <;> simp [read, add_sharer, h]

@[simp] theorem read_sharers : (e.read sender).sharers = e.sharers ||| BitVec.twoPow 8 sender := by
  by_cases h : e.state = .UNCACHED <;> simp [read, add_sharer, h]

@[simp] theorem read_owner : (e.read sender).exclusive_owner = e.exclusive_owner := by
  by_cases h : e.state = .UNCACHED <;> simp [read, add_sharer, h]

@[simp] theorem grant_state : (e.grant sender).state = .EXCLUSIVE := rfl

@[simp] theorem grant_sharers : (e.grant sender).sharers = BitVec.twoPow 8 sender := BitVec.zero_or

@[simp] theorem grant_owner : (e.grant sender).exclusive_owner = 0 := rfl

end DirectoryEntry

/-- The key of a page in the directory. -/
def directory_key (region_id : UInt32) (page_idx : UInt64) : UInt64 :=
  region_id.toUInt64 <<< 32 ||| page_idx &&& 0xFFFFFFFF

/-- The key of the page that a message is about. -/
def CoherenceMessage.key (msg : CoherenceMessage) : UInt64 :=
  directory_key msg.page_addr.region_id (page_index msg.page_addr.offset)

/-! ## A Node -/

structure CachedPage where
  gaddr : GlobalAddress
  local_state : CoherenceState
  epoch : UInt64
  dirty : Bool
deriving DecidableEq

structure Node where
  node_id_ : Nat
  num_nodes_ : Nat
  directory_ : UInt64 → Option DirectoryEntry
  local_cache_ : List (UInt64 × CachedPage)
  global_epoch_ : UInt64
  barrier_count_ : UInt32
  /-- The messages that the running call has sent, in order. -/
  outbox : List (Nat × CoherenceMessage)

/-- What a call leaves, with the text of the exception that ended it. -/
structure Result where
  node : Node
  error : Option String := none

/-- Goes on with `f` unless the call has thrown. -/
def Result.andThen (r : Result) (f : Node → Result) : Result :=
  match r.error with
  | none => f r.node
  | some _ => r

@[simp] theorem Result.andThen_none (n : Node) (f : Node → Result) : Result.andThen ⟨n, none⟩ f = f n := rfl

@[simp] theorem Result.andThen_some (n : Node) (e : String) (f : Node → Result) :
    Result.andThen ⟨n, some e⟩ f = ⟨n, some e⟩ := rfl

namespace Node

/-- The node after `start()`. -/
def new (num_nodes node_id : Nat) : Node := ⟨node_id, num_nodes, fun _ => none, [], 0, 0, []⟩

/-- `start()` has made a message buffer for every other node. -/
def hasMsgBuf (n : Node) (target : Nat) : Bool := target < n.num_nodes_ && target != n.node_id_

/-- The transport has taken the given messages. -/
def post (n : Node) (messages : List (Nat × CoherenceMessage)) : Node :=
  { n with outbox := n.outbox ++ messages }

/-- The text of the check in `send_message`. -/
def noMsgBuf (target : Nat) : String := "Coherence: no message buffer for node " ++ toString target

def send_message (n : Node) (target : Nat) (msg : CoherenceMessage) : Result :=
  if n.hasMsgBuf target then ⟨n.post [(target, msg)], none⟩ else ⟨n, some (noMsgBuf target)⟩

/-- The loops that send a message to all other nodes for which `p` holds. -/
def sendToOthers (n : Node) (p : Nat → Bool) (msg : CoherenceMessage) : Result :=
  (List.range n.num_nodes_).foldl
    (fun r i => r.andThen fun n => if i ≠ n.node_id_ ∧ p i then n.send_message i msg else ⟨n, none⟩) ⟨n, none⟩

/-- `get_or_create`; the entry stays in the directory. -/
def entryAt (n : Node) (key : UInt64) : DirectoryEntry := (n.directory_ key).getD {}

def setEntry (n : Node) (key : UInt64) (e : DirectoryEntry) : Node :=
  { n with directory_ := Function.update n.directory_ key (some e) }

def invalidate_sharers (n : Node) (key : UInt64) : Result :=
  n.sendToOthers (n.entryAt key).has_sharer { op := .INVALIDATE, epoch := (n.entryAt key).epoch }

/-! ### Handling messages -/

def handleReadReq (n : Node) (msg : CoherenceMessage) (sender : Nat) : Result :=
  let entry := n.entryAt msg.key
  let n := n.setEntry msg.key entry
  Result.andThen
    (if entry.state = .EXCLUSIVE then
      n.send_message entry.exclusive_owner.toNat
        { op := .WRITEBACK_REQ, page_addr := msg.page_addr, epoch := msg.epoch }
    else ⟨n, none⟩) fun n =>
  let entry := entry.read sender
  (n.setEntry msg.key entry).send_message sender
    { op := if entry.state = .EXCLUSIVE then .READ_REPLY_DIRTY else .READ_REPLY
      page_addr := msg.page_addr
      epoch := entry.epoch }

def handleExclusiveReq (n : Node) (msg : CoherenceMessage) (sender : Nat) : Result :=
  let entry := n.entryAt msg.key
  let n := n.setEntry msg.key entry
  Result.andThen (if entry.sharers ≠ 0 then n.invalidate_sharers msg.key else ⟨n, none⟩) fun n =>
  Result.andThen
    (if entry.state = .EXCLUSIVE ∧ entry.exclusive_owner.toNat ≠ sender then
      n.send_message entry.exclusive_owner.toNat
        { op := .WRITEBACK_REQ, page_addr := msg.page_addr, epoch := msg.epoch }
    else ⟨n, none⟩) fun n =>
  let entry := entry.grant sender
  (n.setEntry msg.key entry).send_message sender
    { op := .EXCLUSIVE_GRANT, page_addr := msg.page_addr, epoch := entry.epoch }

def handleBarrierEnter (n : Node) : Result :=
  let count := n.barrier_count_ + 1
  let n := { n with barrier_count_ := count }
  if UInt32.ofNat (n.num_nodes_ - 1) ≤ count then
    Result.andThen
      (sendToOthers { n with global_epoch_ := n.global_epoch_ + 1 } (fun _ => true)
        { op := .BARRIER_LEAVE, epoch := n.global_epoch_ }) fun n =>
    ⟨{ n with barrier_count_ := 0 }, none⟩
  else ⟨n, none⟩

def handle_message (n : Node) (msg : CoherenceMessage) (sender : Nat) : Result :=
  match msg.op with
  | .READ_REQ => n.handleReadReq msg sender
  | .EXCLUSIVE_REQ => n.handleExclusiveReq msg sender
  | .WRITEBACK_DATA => ⟨n.setEntry msg.key (n.entryAt msg.key).writeback, none⟩
  | .INVAL_ACK => ⟨n, none⟩
  | .BARRIER_ENTER => n.handleBarrierEnter
  | .BARRIER_LEAVE => ⟨{ n with global_epoch_ := n.global_epoch_ + 1 }, none⟩
  -- "unhandled message"
  | _ => ⟨n, none⟩

/-! ### What the handlers do -/

section Handlers

variable {n : Node} {msg : CoherenceMessage} {sender : Nat}

theorem send_message_of_hasMsgBuf {target : Nat} (h : n.hasMsgBuf target = true) :
    n.send_message target msg = ⟨n.post [(target, msg)], none⟩ := if_pos h

theorem send_message_of_not_hasMsgBuf {target : Nat} (h : n.hasMsgBuf target = false) :
    n.send_message target msg = ⟨n, some (noMsgBuf target)⟩ := if_neg (Bool.eq_false_iff.mp h)

theorem send_message_directory (target : Nat) : (n.send_message target msg).node.directory_ = n.directory_ := by
  unfold send_message
  split <;> rfl

theorem post_post (n : Node) (l l' : List (Nat × CoherenceMessage)) : (n.post l).post l' = n.post (l ++ l') := by
  simp [post]

/-- The targets of such a loop. -/
def others (n : Node) (p : Nat → Bool) : List Nat :=
  (List.range n.num_nodes_).filter fun i => i ≠ n.node_id_ ∧ p i

/-- Such a loop does not throw. -/
theorem sendToOthers_eq (n : Node) (p : Nat → Bool) (msg : CoherenceMessage) :
    n.sendToOthers p msg = ⟨n.post ((n.others p).map fun i => (i, msg)), none⟩ := by
  have hloop : ∀ (l : List Nat) (n : Node), (∀ i ∈ l, i < n.num_nodes_) →
      l.foldl (fun r i => Result.andThen r fun n =>
        if i ≠ n.node_id_ ∧ p i then n.send_message i msg else ⟨n, none⟩) ⟨n, none⟩ =
      ⟨n.post ((l.filter fun i => i ≠ n.node_id_ ∧ p i).map fun i => (i, msg)), none⟩ := by
    intro l
    induction l with
    | nil => intro n _; simp [post]
    | cons i rest ih =>
      intro n hl
      obtain ⟨hi, hrest⟩ := List.forall_mem_cons.mp hl
      rw [List.foldl_cons, Result.andThen_none]
      by_cases hp : i ≠ n.node_id_ ∧ p i
      · have hbuf : n.hasMsgBuf i = true := by simp [hasMsgBuf, hi, hp.1]
        have hnext := ih (n.post [(i, msg)]) hrest
        rw [if_pos hp, send_message_of_hasMsgBuf hbuf, hnext, post_post, List.filter_cons_of_pos (by simpa using hp)]
        rfl
      · rw [if_neg hp, ih n hrest, List.filter_cons_of_neg (by simpa using hp)]
  exact hloop _ _ fun i hi => List.mem_range.mp hi

@[simp] theorem setEntry_setEntry (n : Node) (key : UInt64) (e e' : DirectoryEntry) :
    (n.setEntry key e).setEntry key e' = n.setEntry key e' := by simp [setEntry]

theorem post_setEntry (n : Node) (l : List (Nat × CoherenceMessage)) (key : UInt64) (e : DirectoryEntry) :
    (n.post l).setEntry key e = (n.setEntry key e).post l := rfl

theorem post_nil (n : Node) : n.post [] = n := by simp [post]

theorem entryAt_setEntry (n : Node) (key : UInt64) (e : DirectoryEntry) : (n.setEntry key e).entryAt key = e := by
  simp [entryAt, setEntry]

/-- The `WRITEBACK_REQ` to the owner. -/
def writebackReq (e : DirectoryEntry) (msg : CoherenceMessage) : Nat × CoherenceMessage :=
  (e.exclusive_owner.toNat, { op := .WRITEBACK_REQ, page_addr := msg.page_addr, epoch := msg.epoch })

/-- The messages of `invalidate_sharers`. None of them names the page. -/
def invalidations (n : Node) (e : DirectoryEntry) : List (Nat × CoherenceMessage) :=
  if e.sharers ≠ 0 then (n.others e.has_sharer).map fun i => (i, { op := .INVALIDATE, epoch := e.epoch }) else []

/-- The owner of an exclusive page has no message buffer. -/
def Unreachable (n : Node) (e : DirectoryEntry) : Prop :=
  e.state = .EXCLUSIVE ∧ n.hasMsgBuf e.exclusive_owner.toNat = false

instance (n : Node) (e : DirectoryEntry) : Decidable (n.Unreachable e) := inferInstanceAs (Decidable (_ ∧ _))

/-- A `READ_REQ` of an exclusive page whose owner cannot be reached throws; otherwise
    the reader becomes a sharer and is answered. -/
theorem handleReadReq_eq (n : Node) (msg : CoherenceMessage) (sender : Nat) {e : DirectoryEntry}
    (he : n.entryAt msg.key = e) :
    n.handleReadReq msg sender =
      if n.Unreachable e then ⟨n.setEntry msg.key e, some (noMsgBuf e.exclusive_owner.toNat)⟩
      else
        ((n.setEntry msg.key (e.read sender)).post
          (if e.state = .EXCLUSIVE then [writebackReq e msg] else [])).send_message sender
          { op := if (e.read sender).state = .EXCLUSIVE then .READ_REPLY_DIRTY else .READ_REPLY
            page_addr := msg.page_addr
            epoch := (e.read sender).epoch } := by
  unfold handleReadReq
  rw [he]
  generalize msg.key = key
  by_cases hex : e.state = .EXCLUSIVE
  · cases hbuf : (n.setEntry key e).hasMsgBuf e.exclusive_owner.toNat with
    | false =>
      have hun : n.Unreachable e := ⟨hex, hbuf⟩
      simp only [if_pos hex, send_message_of_not_hasMsgBuf hbuf, Result.andThen_some, if_pos hun]
    | true =>
      have hun : ¬n.Unreachable e := fun h => Bool.noConfusion (hbuf.symm.trans h.2)
      simp only [if_pos hex, send_message_of_hasMsgBuf hbuf, Result.andThen_none, post_setEntry, setEntry_setEntry,
        if_neg hun, writebackReq]
  · have hun : ¬n.Unreachable e := fun h => hex h.1
    simp only [if_neg hex, Result.andThen_none, setEntry_setEntry, if_neg hun, post_nil]

/-- An `EXCLUSIVE_REQ` invalidates the sharers and is granted at once, unless another
    owner cannot be reached. -/
theorem handleExclusiveReq_eq (n : Node) (msg : CoherenceMessage) (sender : Nat) {e : DirectoryEntry}
    (he : n.entryAt msg.key = e) :
    n.handleExclusiveReq msg sender =
      if n.Unreachable e ∧ e.exclusive_owner.toNat ≠ sender then
        ⟨(n.setEntry msg.key e).post (n.invalidations e), some (noMsgBuf e.exclusive_owner.toNat)⟩
      else
        ((n.setEntry msg.key (e.grant sender)).post (n.invalidations e ++
          if e.state = .EXCLUSIVE ∧ e.exclusive_owner.toNat ≠ sender then [writebackReq e msg]
          else [])).send_message sender
          { op := .EXCLUSIVE_GRANT, page_addr := msg.page_addr, epoch := (e.grant sender).epoch } := by
  unfold handleExclusiveReq
  rw [he]
  generalize msg.key = key
  have hinv : (if e.sharers ≠ 0 then (n.setEntry key e).invalidate_sharers key else ⟨n.setEntry key e, none⟩) =
      ⟨(n.setEntry key e).post (n.invalidations e), none⟩ := by
    unfold invalidations
    split
    · rw [invalidate_sharers, sendToOthers_eq, entryAt_setEntry]
      rfl
    · rw [post_nil]
  simp only [hinv, Result.andThen_none]
  by_cases hex : e.state = .EXCLUSIVE ∧ e.exclusive_owner.toNat ≠ sender
  · cases hbuf : ((n.setEntry key e).post (n.invalidations e)).hasMsgBuf e.exclusive_owner.toNat with
    | false =>
      have hun : n.Unreachable e ∧ e.exclusive_owner.toNat ≠ sender := ⟨⟨hex.1, hbuf⟩, hex.2⟩
      simp only [if_pos hex, send_message_of_not_hasMsgBuf hbuf, Result.andThen_some, if_pos hun]
    | true =>
      have hun : ¬(n.Unreachable e ∧ e.exclusive_owner.toNat ≠ sender) :=
        fun h => Bool.noConfusion (hbuf.symm.trans h.1.2)
      simp only [if_pos hex, send_message_of_hasMsgBuf hbuf, Result.andThen_none, post_setEntry, post_post,
        setEntry_setEntry, if_neg hun, writebackReq]
  · have hun : ¬(n.Unreachable e ∧ e.exclusive_owner.toNat ≠ sender) := fun h => hex ⟨h.1.1, h.2⟩
    simp only [if_neg hex, Result.andThen_none, post_setEntry, setEntry_setEntry, if_neg hun, List.append_nil]

end Handlers

end Node

/-! ## The Directory Invariant -/

/-- The relation between the state, the mask and the owner of an entry. -/
structure EntryOk (e : DirectoryEntry) : Prop where
  uncached : e.state = .UNCACHED → e.sharers = 0
  shared : e.state = .SHARED → e.sharers ≠ 0
  exclusive : e.state = .EXCLUSIVE → e.sharers = BitVec.twoPow 8 e.exclusive_owner.toNat

theorem entryOk_default : EntryOk {} :=
  ⟨fun _ => rfl, fun h => CoherenceState.noConfusion h, fun h => CoherenceState.noConfusion h⟩

theorem or_twoPow_ne_zero (m : BitVec 8) {s : Nat} (hs : s < 8) : m ||| BitVec.twoPow 8 s ≠ 0 := by
  intro h
  have hbit := congrArg (fun b => b.getLsbD s) h
  simp [hs] at hbit

/-- Bit `s` is in the mask of `o` only if the two are the same node. -/
theorem or_twoPow_eq_iff {s o : Nat} (hs : s < 8) :
    BitVec.twoPow 8 o ||| BitVec.twoPow 8 s = BitVec.twoPow 8 o ↔ o = s := by
  constructor
  · intro h
    have hbit := congrArg (fun b => b.getLsbD s) h
    exact Eq.symm (by simpa [BitVec.getLsbD_twoPow, hs] using hbit)
  · rintro rfl
    exact BitVec.or_self

theorem twoPow_eq_iff {s : Nat} (hs : s < 8) : BitVec.twoPow 8 s = BitVec.twoPow 8 0 ↔ s = 0 := by
  constructor
  · intro h
    have hbit := congrArg (fun b => b.getLsbD s) h
    simp only [BitVec.getLsbD_twoPow, hs, decide_true, Bool.true_and] at hbit
    exact Eq.symm (by simpa using hbit)
  · rintro rfl
    rfl

theorem entryOk_read {e : DirectoryEntry} (h : EntryOk e) {s : Nat} (hs : s < 8) :
    EntryOk (e.read s) ↔ (e.state = .EXCLUSIVE → e.exclusive_owner.toNat = s) := by
  have hne : (e.read s).sharers ≠ 0 := by
    rw [DirectoryEntry.read_sharers]
    exact or_twoPow_ne_zero _ hs
  constructor
  · intro hok hex
    have hstate : (e.read s).state = .EXCLUSIVE := by simp [hex]
    have hmask := hok.exclusive hstate
    rw [DirectoryEntry.read_sharers, DirectoryEntry.read_owner, h.exclusive hex] at hmask
    exact (or_twoPow_eq_iff hs).mp hmask
  · intro howner
    refine ⟨fun hst => ?_, fun _ => hne, fun hst => ?_⟩
    · -- a page that has been read is not uncached
      rw [DirectoryEntry.read_state] at hst
      split at hst
      · cases hst
      · contradiction
    · have hex : e.state = .EXCLUSIVE := by
        rw [DirectoryEntry.read_state] at hst
        split at hst
        · cases hst
        · exact hst
      rw [DirectoryEntry.read_sharers, DirectoryEntry.read_owner, h.exclusive hex]
      exact (or_twoPow_eq_iff hs).mpr (howner hex)

theorem entryOk_grant (e : DirectoryEntry) {s : Nat} (hs : s < 8) : EntryOk (e.grant s) ↔ s = 0 := by
  constructor
  · intro hok
    exact (twoPow_eq_iff hs).mp (by simpa using hok.exclusive rfl)
  · rintro rfl
    refine ⟨fun hst => ?_, fun hst => ?_, fun _ => ?_⟩
    · cases hst
    · cases hst
    · simp

theorem entryOk_writeback (e : DirectoryEntry) : EntryOk e.writeback ↔ e.sharers = 0 := by
  refine ⟨fun hok => hok.uncached rfl, fun h => ⟨fun _ => h, fun hst => ?_, fun hst => ?_⟩⟩
  · cases hst
  · cases hst

/-- Every entry of the directory is right. -/
def DirectoryOk (n : Node) : Prop := ∀ key e, n.directory_ key = some e → EntryOk e

theorem DirectoryOk.entryAt {n : Node} (h : DirectoryOk n) (key : UInt64) : EntryOk (n.entryAt key) := by
  unfold Node.entryAt
  cases hd : n.directory_ key with
  | none => exact entryOk_default
  | some e => exact h key e hd

theorem directoryOk_update {n n' : Node} (h : DirectoryOk n) (key : UInt64) (e : DirectoryEntry)
    (hd : n'.directory_ = Function.update n.directory_ key (some e)) : DirectoryOk n' ↔ EntryOk e := by
  constructor
  · intro hok
    exact hok key e (by rw [hd, Function.update_self])
  · intro he key' e' hk
    rw [hd] at hk
    by_cases heq : key' = key
    · subst heq
      rw [Function.update_self] at hk
      cases hk
      exact he
    · rw [Function.update_of_ne heq] at hk
      exact h key' e' hk

/-- A message and its sender. -/
structure Arrival where
  msg : CoherenceMessage
  sender : Nat

/-- The messages that the directory deals with, from senders that have a bit in the
    mask. -/
def Arrival.Admitted (a : Arrival) : Prop :=
  a.sender < 8 ∧ (a.msg.op = .READ_REQ ∨ a.msg.op = .EXCLUSIVE_REQ ∨ a.msg.op = .WRITEBACK_DATA ∨
    a.msg.op = .INVAL_ACK)

/-- A home node that handles such messages. An exception ends only the call. -/
def home (num_nodes node_id : Nat) : System Node Arrival where
  init n := n = .new num_nodes node_id
  step n a n' := a.Admitted ∧ n' = (n.handle_message a.msg a.sender).node

/-- The messages that leave the directory right: a read of an exclusive page comes
    from its owner, a grant goes to node 0, and a page that is written back has no
    sharers. Requests that the home cannot pass on to the owner change nothing. -/
def Regular (n : Node) (a : Arrival) : Prop :=
  match a.msg.op with
  | .READ_REQ =>
    (n.entryAt a.msg.key).state = .EXCLUSIVE → (n.entryAt a.msg.key).exclusive_owner.toNat = a.sender ∨
      n.hasMsgBuf (n.entryAt a.msg.key).exclusive_owner.toNat = false
  | .EXCLUSIVE_REQ =>
    a.sender = 0 ∨
      n.Unreachable (n.entryAt a.msg.key) ∧ (n.entryAt a.msg.key).exclusive_owner.toNat ≠ a.sender
  | .WRITEBACK_DATA => (n.entryAt a.msg.key).sharers = 0
  | _ => True

theorem directoryOk_step {n n' : Node} {a : Arrival} (h : DirectoryOk n) (ha : a.Admitted)
    (hn : n' = (n.handle_message a.msg a.sender).node) : DirectoryOk n' ↔ Regular n a := by
  obtain ⟨hs, hop⟩ := ha
  have he := h.entryAt a.msg.key
  unfold Regular
  unfold Node.handle_message at hn
  rcases hop with hop | hop | hop | hop <;> rw [hop] at hn ⊢ <;> simp only at hn ⊢
  · -- a read
    rw [n.handleReadReq_eq a.msg a.sender rfl] at hn
    by_cases hun : n.Unreachable (n.entryAt a.msg.key)
    · rw [if_pos hun] at hn
      rw [directoryOk_update h a.msg.key (n.entryAt a.msg.key) (by rw [hn]; rfl)]
      exact iff_of_true he fun _ => .inr hun.2
    · rw [if_neg hun] at hn
      rw [directoryOk_update h a.msg.key ((n.entryAt a.msg.key).read a.sender)
        (by rw [hn, Node.send_message_directory]; rfl), entryOk_read he hs]
      refine forall_congr' fun hex => ⟨.inl, fun hor => hor.resolve_right fun hbuf => hun ⟨hex, hbuf⟩⟩
  · -- a grant
    rw [n.handleExclusiveReq_eq a.msg a.sender rfl] at hn
    by_cases hun : n.Unreachable (n.entryAt a.msg.key) ∧ (n.entryAt a.msg.key).exclusive_owner.toNat ≠ a.sender
    · rw [if_pos hun] at hn
      rw [directoryOk_update h a.msg.key (n.entryAt a.msg.key) (by rw [hn]; rfl)]
      exact iff_of_true he (.inr hun)
    · rw [if_neg hun] at hn
      rw [directoryOk_update h a.msg.key ((n.entryAt a.msg.key).grant a.sender)
        (by rw [hn, Node.send_message_directory]; rfl), entryOk_grant _ hs]
      exact ⟨.inl, fun hor => hor.resolve_right hun⟩
  · -- a write-back
    rw [directoryOk_update h a.msg.key ((n.entryAt a.msg.key).writeback) (by rw [hn]; rfl),
      entryOk_writeback]
  · subst hn
    exact iff_of_true h trivial

theorem directoryOk_of_reach {num_nodes node_id : Nat} {n : Node}
    (h : (home num_nodes node_id).Reach Regular n) : DirectoryOk n := by
  refine h.invariant (I := DirectoryOk) ?_ ?_
  · rintro n rfl key e hnone
    cases hnone
  · intro n a n' hn hok hs
    exact (directoryOk_step hn hs.1 hs.2).mpr hok

/-- **The directory invariant** holds along runs of regular messages, and the next
    message keeps it exactly if it is regular. -/
theorem directory_exact {num_nodes node_id : Nat} {n : Node} (h : (home num_nodes node_id).Reach Regular n) :
    DirectoryOk n ∧ ∀ a n', (home num_nodes node_id).step n a n' → (DirectoryOk n' ↔ Regular n a) :=
  ⟨directoryOk_of_reach h, fun _ _ hs => directoryOk_step (directoryOk_of_reach h) hs.1 hs.2⟩

/-- Node 1 of a cluster of three reads a page of node 2. -/
theorem directory_after_read : ∃ n, (home 3 2).Reach Regular n ∧
    ((n.directory_ 0).map fun e => e.state) = some .SHARED ∧ DirectoryOk n := by
  have hinit : (home 3 2).Reach Regular _ := .init rfl
  have hread := hinit.next
    (a := ⟨{ op := .READ_REQ }, 1⟩) ⟨⟨by decide, .inl rfl⟩, rfl⟩ (by intro hex; cases hex)
  exact ⟨_, hread, by decide, (directory_exact hread).1⟩

/-- Node 1 is granted a page of node 2, and node 0 is recorded as the owner. After a
    read by node 1 and a write-back the page is uncached with a sharer. -/
theorem grant_loses_owner :
    (∃ n e, (home 3 2).Reachable n ∧ n.directory_ 0 = some e ∧ e.state = .EXCLUSIVE ∧
      e.sharers = BitVec.twoPow 8 1 ∧ e.exclusive_owner = 0) ∧
    ∃ n e, (home 3 2).Reachable n ∧ n.directory_ 0 = some e ∧ e.state = .UNCACHED ∧ e.sharers ≠ 0 := by
  have hinit : (home 3 2).Reachable _ := .init rfl
  have hgrant := hinit.next (a := ⟨{ op := .EXCLUSIVE_REQ }, 1⟩) ⟨⟨by decide, .inr (.inl rfl)⟩, rfl⟩
  have hread := hinit.next (a := ⟨{ op := .READ_REQ }, 1⟩) ⟨⟨by decide, .inl rfl⟩, rfl⟩
  have hback := hread.next (a := ⟨{ op := .WRITEBACK_DATA }, 1⟩) ⟨⟨by decide, .inr (.inr (.inl rfl))⟩, rfl⟩
  exact ⟨⟨_, _, hgrant, rfl, rfl, by decide, rfl⟩, _, _, hback, rfl, rfl, by decide⟩

end Mccl.Coherence
