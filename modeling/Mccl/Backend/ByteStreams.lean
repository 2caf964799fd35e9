import Mathlib.Data.ENat.Basic
import Mathlib.Data.List.Flatten
import Mccl.Framework.System

/-! # Byte Streams between Two Ranks

    Model of `write_all` and `read_all` (`backend/PeerMesh.cpp`), which `PeerMesh::send`
    and `PeerMesh::recv` call, at the two ends of one connection. The kernel takes and
    hands out any number of bytes at a time: `::send` at most what it has room for,
    `::recv` at most what is there.

    * `Inv`: what has been received, what is under way and what is still to be written
      are what was to be sent.
    * `streams_exact`: if the lengths that are received add up to those that are sent,
      every run in which no call fails ends with everything received, in at most as
      many calls as there are bytes.

    The collectives are modelled over channels that carry one byte at a time. -/

namespace Mccl.ByteStreams

variable {β : Type}

/-! ## The Two Ends -/

/-- Where the sending thread is. -/
inductive Sender (β : Type) where
  /-- Between calls, with the buffers that are still to be sent. -/
  | idle (bufs : List (List β))
  /-- In `write_all`, with the `len` bytes from `p` on. -/
  | writing (rest : List β) (bufs : List (List β))
  /-- "PeerMesh: send failed". -/
  | raised

/-- Where the receiving thread is. -/
inductive Receiver (β : Type) where
  /-- Between calls, with the lengths that are still to be received. -/
  | idle (lens : List Nat)
  /-- In `read_all`, with the bytes before `p` and the `len` that are missing. -/
  | reading (got : List β) (len : Nat) (lens : List Nat)
  /-- "PeerMesh: recv failed". -/
  | raised

structure State (β : Type) where
  sender : Sender β
  receiver : Receiver β
  /-- The bytes in the kernel. -/
  stream : List β
  /-- The buffers that calls of `recv` have filled. -/
  received : List (List β)
  /-- The calls of `::send` and of `::recv` (ghost). -/
  sends : Nat
  recvs : Nat

def start (bufs : List (List β)) (lens : List Nat) : State β := ⟨.idle bufs, .idle lens, [], [], 0, 0⟩

inductive Act where
  /-- A call of `::send` or `::recv` returns `n`. -/
  | io (n : Int)
  /-- A call of `PeerMesh::send` or `PeerMesh::recv` starts or returns. -/
  | call

/-- Room for `cap` bytes in the kernel. -/
inductive Step (cap : ℕ∞) : State β → Act → State β → Prop where
  | send {s : State β} {buf : List β} {bufs : List (List β)} (h : s.sender = .idle (buf :: bufs)) :
      Step cap s .call { s with sender := .writing buf bufs }
  | sent {s : State β} {rest : List β} {bufs : List (List β)} {n : Nat} (h : s.sender = .writing rest bufs)
      (hn : 0 < n) (hle : n ≤ rest.length) (hroom : ((s.stream.length + n : Nat) : ℕ∞) ≤ cap) :
      Step cap s (.io n)
        { s with sender := .writing (rest.drop n) bufs, stream := s.stream ++ rest.take n, sends := s.sends + 1 }
  | send_fails {s : State β} {rest : List β} {bufs : List (List β)} {n : Int} (h : s.sender = .writing rest bufs)
      (hlen : rest ≠ []) (hn : n ≤ 0) :
      Step cap s (.io n) { s with sender := .raised, sends := s.sends + 1 }
  | send_returns {s : State β} {bufs : List (List β)} (h : s.sender = .writing [] bufs) :
      Step cap s .call { s with sender := .idle bufs }
  | recv {s : State β} {len : Nat} {lens : List Nat} (h : s.receiver = .idle (len :: lens)) :
      Step cap s .call { s with receiver := .reading [] len lens }
  | got {s : State β} {got : List β} {len n : Nat} {lens : List Nat} (h : s.receiver = .reading got len lens)
      (hn : 0 < n) (hle : n ≤ len) (havail : n ≤ s.stream.length) :
      Step cap s (.io n)
        { s with
          receiver := .reading (got ++ s.stream.take n) (len - n) lens
          stream := s.stream.drop n
          recvs := s.recvs + 1 }
  | recv_fails {s : State β} {got : List β} {len : Nat} {lens : List Nat} {n : Int}
      (h : s.receiver = .reading got len lens) (hlen : len ≠ 0) (hn : n ≤ 0) :
      Step cap s (.io n) { s with receiver := .raised, recvs := s.recvs + 1 }
  | recv_returns {s : State β} {got : List β} {lens : List Nat} (h : s.receiver = .reading got 0 lens) :
      Step cap s .call { s with receiver := .idle lens, received := s.received ++ [got] }

/-- The system calls return a positive count. -/
def Act.Succeeds : Act → Prop
  | .io n => 0 < n
  | .call => True

/-- A connection on which no system call fails. -/
def connection (cap : ℕ∞) (bufs : List (List β)) (lens : List Nat) : System (State β) Act where
  init s := s = start bufs lens
  step s a s' := a.Succeeds ∧ Step cap s a s'

/-! ## Conservation -/

namespace Sender

/-- What is still to be written. -/
def pending : Sender β → List β
  | idle bufs => bufs.flatten
  | writing rest bufs => rest ++ bufs.flatten
  | raised => []

/-- A bound on the steps that are left. -/
def weight : Sender β → Nat
  | idle bufs => bufs.flatten.length + 2 * bufs.length
  | writing rest bufs => rest.length + bufs.flatten.length + 2 * bufs.length + 1
  | raised => 0

end Sender

namespace Receiver

/-- What the current call has read. -/
def filled : Receiver β → List β
  | reading got _ _ => got
  | _ => []

/-- The lengths of the buffers that are not yet complete. -/
def missing : Receiver β → List Nat
  | idle lens => lens
  | reading got len lens => (got.length + len) :: lens
  | raised => []

def weight : Receiver β → Nat
  | idle lens => lens.sum + 2 * lens.length
  | reading _ len lens => len + lens.sum + 2 * lens.length + 1
  | raised => 0

end Receiver

/-- As long as no system call fails, no byte is lost and every call moves one. -/
structure Inv (bufs : List (List β)) (lens : List Nat) (s : State β) : Prop where
  bytes : s.received.flatten ++ s.receiver.filled ++ (s.stream ++ s.sender.pending) = bufs.flatten
  lengths : s.received.map List.length ++ s.receiver.missing = lens
  sends : s.sends + s.sender.pending.length ≤ bufs.flatten.length
  recvs : s.recvs ≤ (s.received.flatten ++ s.receiver.filled).length
  running : s.sender ≠ .raised ∧ s.receiver ≠ .raised

variable {cap : ℕ∞} {bufs : List (List β)} {lens : List Nat} {s s' : State β} {a : Act}

theorem Inv.start (bufs : List (List β)) (lens : List Nat) : Inv bufs lens (start bufs lens) where
  bytes := rfl
  lengths := rfl
  sends := Nat.le_of_eq (Nat.zero_add _)
  recvs := Nat.zero_le _
  running := ⟨nofun, nofun⟩

theorem Inv.step (h : Inv bufs lens s) (ha : a.Succeeds) (hs : Step cap s a s') : Inv bufs lens s' := by
  obtain ⟨hbytes, hlengths, hsends, hrecvs, hsender, hreceiver⟩ := h
  cases hs with
  | send hidle =>
    rw [hidle] at hbytes hsends
    exact ⟨hbytes, hlengths, hsends, hrecvs, nofun, hreceiver⟩
  | @sent rest _ n hwriting hn hle hroom =>
    rw [hwriting] at hbytes hsends
    refine ⟨?_, hlengths, ?_, hrecvs, nofun, hreceiver⟩
    · rw [← hbytes]
      show _ ++ (s.stream ++ rest.take n ++ (rest.drop n ++ _)) = _ ++ (s.stream ++ (rest ++ _))
      rw [List.append_assoc s.stream, ← List.append_assoc (rest.take n), List.take_append_drop]
    · show s.sends + 1 + (rest.drop n ++ _).length ≤ _
      simp only [Sender.pending, List.length_append, List.length_drop] at hsends ⊢
      omega
  | send_fails _ _ hn | recv_fails _ _ hn => exact absurd ha (Int.not_lt.mpr hn)
  | send_returns hwriting =>
    rw [hwriting] at hbytes hsends
    exact ⟨hbytes, hlengths, hsends, hrecvs, nofun, hreceiver⟩
  | recv hidle =>
    rw [hidle] at hbytes hlengths hrecvs
    refine ⟨hbytes, ?_, hsends, hrecvs, hsender, nofun⟩
    rw [← hlengths]
    show _ ++ (0 + _) :: _ = _
    rw [Nat.zero_add]
    rfl
  | @got got len n lens' hreading hn hle havail =>
    rw [hreading] at hbytes hlengths hrecvs
    refine ⟨?_, ?_, hsends, ?_, hsender, nofun⟩
    · rw [← hbytes]
      show _ ++ (got ++ s.stream.take n) ++ (s.stream.drop n ++ _) = _ ++ got ++ (s.stream ++ _)
      rw [← List.append_assoc (s.received.flatten), List.append_assoc _ (s.stream.take n),
        ← List.append_assoc (s.stream.take n), List.take_append_drop]
    · rw [← hlengths]
      show _ ++ ((got ++ s.stream.take n).length + (len - n)) :: lens' = _ ++ (got.length + len) :: lens'
      rw [List.length_append, List.length_take, Nat.min_eq_left havail, Nat.add_assoc, Nat.add_sub_cancel' hle]
    · show s.recvs + 1 ≤ (s.received.flatten ++ (got ++ s.stream.take n)).length
      simp only [Receiver.filled, List.length_append, List.length_take, Nat.min_eq_left havail] at hrecvs ⊢
      omega
  | @recv_returns got lens' hreading =>
    rw [hreading] at hbytes hlengths hrecvs
    have hflatten : (s.received ++ [got]).flatten = s.received.flatten ++ got := by simp
    refine ⟨?_, ?_, hsends, ?_, hsender, nofun⟩
    · rw [← hbytes]
      show (s.received ++ [got]).flatten ++ [] ++ _ = _
      rw [hflatten, List.append_nil]
      rfl
    · rw [← hlengths]
      show (s.received ++ [got]).map List.length ++ lens' = _ ++ (got.length + 0) :: lens'
      simp
    · show s.recvs ≤ ((s.received ++ [got]).flatten ++ []).length
      rw [hflatten, List.append_nil]
      exact hrecvs

/-! ## Progress -/

theorem weight_lt (ha : a.Succeeds) (hs : Step cap s a s') :
    s'.sender.weight + s'.receiver.weight < s.sender.weight + s.receiver.weight := by
  cases hs with
  | send h | recv h =>
    simp [h, Sender.weight, Receiver.weight]
    omega
  | send_returns h | recv_returns h => simp [h, Sender.weight, Receiver.weight]
  | sent h hn hle _ =>
    simp [h, Sender.weight]
    omega
  | got h hn hle _ =>
    simp [h, Receiver.weight]
    omega
  | send_fails _ _ hn | recv_fails _ _ hn => exact absurd ha (Int.not_lt.mpr hn)

/-- Everything has been received, in the requested pieces. -/
structure Exact (bufs : List (List β)) (lens : List Nat) (s : State β) : Prop where
  sender : s.sender = .idle []
  receiver : s.receiver = .idle []
  bytes : s.received.flatten = bufs.flatten
  lengths : s.received.map List.length = lens
  sends : s.sends ≤ bufs.flatten.length
  recvs : s.recvs ≤ bufs.flatten.length

/-- The connection cannot move from here. -/
def Stuck (cap : ℕ∞) (s : State β) : Prop := ∀ a s', ¬(a.Succeeds ∧ Step cap s a s')

/-- The sender waits only if there are bytes in the kernel. -/
theorem Stuck.sender (h : Stuck cap s) (hcap : 0 < cap) (hrun : s.sender ≠ .raised) :
    s.sender = .idle [] ∨ s.stream ≠ [] := by
  cases hs : s.sender with
  | raised => exact absurd hs hrun
  | idle bufs =>
    cases bufs with
    | nil => exact .inl rfl
    | cons => exact absurd ⟨trivial, .send hs⟩ (h .call _)
  | writing rest bufs =>
    right
    intro hempty
    cases rest with
    | nil => exact h .call _ ⟨trivial, .send_returns hs⟩
    | cons =>
      have hroom : ((s.stream.length + 1 : Nat) : ℕ∞) ≤ cap := by
        rw [hempty]
        exact Order.one_le_iff_pos.mpr hcap
      exact h (.io (1 : Nat)) _ ⟨Int.one_pos, .sent hs Nat.one_pos (by simp) hroom⟩

/-- The receiver waits only if there are none. -/
theorem Stuck.receiver (h : Stuck cap s) (hrun : s.receiver ≠ .raised) :
    s.receiver = .idle [] ∨ s.stream = [] ∧ ∃ got len lens, s.receiver = .reading got len lens ∧ 0 < len := by
  cases hs : s.receiver with
  | raised => exact absurd hs hrun
  | idle lens =>
    cases lens with
    | nil => exact .inl rfl
    | cons => exact absurd ⟨trivial, .recv hs⟩ (h .call _)
  | reading got len lens =>
    right
    cases len with
    | zero => exact absurd ⟨trivial, .recv_returns hs⟩ (h .call _)
    | succ len =>
      refine ⟨?_, got, len + 1, lens, rfl, Nat.succ_pos len⟩
      by_contra hne
      have havail : 1 ≤ s.stream.length := List.length_pos_iff.mpr hne
      exact h (.io (1 : Nat)) _ ⟨Int.one_pos, .got hs Nat.one_pos (by omega) havail⟩

/-- What is missing is on its way. -/
theorem Inv.missing_sum (h : Inv bufs lens s) (htotal : lens.sum = bufs.flatten.length) :
    s.receiver.missing.sum = s.receiver.filled.length + s.stream.length + s.sender.pending.length := by
  rw [← h.bytes, ← h.lengths, List.sum_append] at htotal
  simp only [List.length_append, List.length_flatten] at htotal
  omega

theorem Inv.exact_of_stuck (h : Inv bufs lens s) (htotal : lens.sum = bufs.flatten.length) (hcap : 0 < cap)
    (hstuck : Stuck cap s) : Exact bufs lens s := by
  have hmissing := h.missing_sum htotal
  obtain hr | ⟨hempty, got, len, lens', hr, hlen⟩ := hstuck.receiver h.running.2
  · rw [hr] at hmissing
    simp only [Receiver.missing, Receiver.filled, List.sum_nil, List.length_nil, Nat.zero_add] at hmissing
    have hempty : s.stream = [] := List.length_eq_zero_iff.mp (by omega)
    have hs : s.sender = .idle [] := (hstuck.sender hcap h.running.1).resolve_right (absurd hempty)
    have hbytes := h.bytes
    have hlengths := h.lengths
    have hrecvs := h.recvs
    simp only [hr, hs, hempty, Receiver.filled, Receiver.missing, Sender.pending, List.flatten_nil, List.append_nil]
      at hbytes hlengths hrecvs
    rw [hbytes] at hrecvs
    exact ⟨hs, hr, hbytes, hlengths, Nat.le_of_add_right_le h.sends, hrecvs⟩
  · -- the sender would have nothing left, but bytes are missing
    have hs : s.sender = .idle [] := (hstuck.sender hcap h.running.1).resolve_right (absurd hempty)
    rw [hr, hs, hempty] at hmissing
    simp only [Receiver.missing, Receiver.filled, Sender.pending, List.sum_cons, List.flatten_nil, List.length_nil]
      at hmissing
    omega

/-- **The streams are exact**: whatever buffers are sent and lengths received, if they
    add up, and however the kernel cuts the bytes into pieces, every run ends, with the
    bytes of the sent buffers in the received ones. -/
theorem streams_exact (bufs : List (List β)) (lens : List Nat) (htotal : lens.sum = bufs.flatten.length) {cap : ℕ∞}
    (hcap : 0 < cap) : (connection cap bufs lens).Ends (Exact bufs lens) (start bufs lens) := by
  apply System.Ends.of_measure (fun s => s.sender.weight + s.receiver.weight) (I := Inv bufs lens)
  · intro s a s' h hs
    exact h.step hs.1 hs.2
  · intro s a s' _ hs
    exact weight_lt hs.1 hs.2
  · intro s h hstuck
    exact h.exact_of_stuck htotal hcap hstuck
  · exact Inv.start bufs lens

/-- Three bytes in two buffers, received in two others, one byte at a time. -/
theorem streams_exact_three : [1, 2].sum = [[7, 8], [9]].flatten.length ∧
    (connection 1 [[7, 8], [9]] [1, 2]).Ends (Exact [[7, 8], [9]] [1, 2]) (start [[7, 8], [9]] [1, 2]) :=
  ⟨rfl, streams_exact [[7, 8], [9]] [1, 2] rfl (by decide)⟩

end Mccl.ByteStreams
