import Mccl.Dmem.AddressResolution

/-! # One-Sided Writes

    Model of `put` and `put_chunked` of `dmem/DistributedMemoryManager.cpp`
    together with the network card that carries out the posted requests.

    * **Processor**: a put is cut into chunks of at most 1 MiB; each chunk is
      copied to the start of the one staging buffer and posted.
    * **Card**: a posted request reads the staging buffer at some moment of its
      own, and then takes effect on the target node; the requests to one node
      take effect in the order in which they were posted.
    * `puts_deliver`: as long as no copy to the staging buffer changes a byte
      that a posted request has yet to read, every target byte ends up as the
      last put to it says. Otherwise it need not (`puts_overwrite`). -/

namespace Mccl.Dmem

/-! ## The Checks of a Put -/

def kRdmaBufSize : Nat := 1024 * 1024

/-- What a put does when its checks have passed. -/
inductive PutPlan where
  /-- `memcpy` to an address of this node. -/
  | copy (local_ptr : UInt64)
  | write (remote_addr : UInt64) (rkey : UInt32)

/-- `connected` tells the nodes to which there is a connection that works. -/
def Manager.put (m : Manager) (connected : UInt16 → Bool) (target_node : UInt16) (dst_addr : GlobalAddress)
    (length : UInt64) : Except String PutPlan :=
  let res := m.resolve dst_addr
  if res.is_local ∧ target_node ≠ m.node_id_ then
    .error "DMEM: put target is local but node_id mismatch"
  else if res.length < length then
    .error ("DMEM: put length " ++ toString length.toNat ++ " exceeds region bounds " ++
      toString res.length.toNat)
  else if res.remote_rkey = 0 ∧ ¬ res.is_local then .error "DMEM: put target not found in catalog"
  else if res.is_local then .ok (.copy res.local_ptr)
  else if ¬ connected target_node then
    .error ("DMEM: no connection to node " ++ toString target_node.toNat)
  else .ok (.write res.remote_addr res.remote_rkey)

/-! ## Chunks -/

/-- The loop of `put_chunked`: offset and length of the chunks that remain. -/
def chunkLoop (length remaining : Nat) : List (Nat × Nat) :=
  if remaining = 0 then []
  else (length - remaining, min remaining kRdmaBufSize) ::
    chunkLoop length (remaining - min remaining kRdmaBufSize)
termination_by remaining
decreasing_by
  have : 0 < kRdmaBufSize := by decide
  omega

/-- The chunks of a put, in the order in which they are posted. -/
def chunks (length : Nat) : List (Nat × Nat) :=
  if length ≤ kRdmaBufSize then [(0, length)] else chunkLoop length length

/-- The chunks follow each other from offset `o` to offset `n`. -/
def Tiles (n : Nat) : Nat → List (Nat × Nat) → Prop
  | o, [] => o = n
  | o, (o', len) :: l => o' = o ∧ Tiles n (o + len) l

theorem Tiles.le {n o : Nat} {l : List (Nat × Nat)} (h : Tiles n o l) : o ≤ n := by
  induction l generalizing o with
  | nil => exact Nat.le_of_eq h
  | cons c l ih => exact Nat.le_of_add_right_le (ih h.2)

theorem tiles_chunkLoop {length remaining : Nat} (h : remaining ≤ length) :
    Tiles length (length - remaining) (chunkLoop length remaining) := by
  induction remaining using Nat.strong_induction_on with
  | _ remaining ih =>
    have hpos : 0 < kRdmaBufSize := by decide
    rw [chunkLoop]
    split
    case isTrue hzero => simp [Tiles, hzero]
    case isFalse hne =>
      refine ⟨rfl, ?_⟩
      rw [show length - remaining + min remaining kRdmaBufSize =
        length - (remaining - min remaining kRdmaBufSize) by omega]
      exact ih _ (by omega) (by omega)

theorem tiles_chunks (length : Nat) : Tiles length 0 (chunks length) := by
  unfold chunks
  split
  case isTrue => exact ⟨rfl, Nat.zero_add _⟩
  case isFalse =>
    have := tiles_chunkLoop (le_refl length)
    rwa [Nat.sub_self] at this

namespace Puts

/-! ## State -/

/-- The memory of all nodes. -/
abbrev Memory := UInt16 × UInt64 → UInt8

/-- A range of a node's memory and the bytes that go there. -/
structure Chunk where
  target : UInt16
  remote_addr : UInt64
  src : Nat → UInt8
  length : Nat

namespace Chunk

/-- The position of an address in the chunk. -/
def index (c : Chunk) (x : UInt16 × UInt64) : Nat := (x.2 - c.remote_addr).toNat

def covers (c : Chunk) (x : UInt16 × UInt64) : Bool := x.1 = c.target ∧ c.index x < c.length

def write (c : Chunk) (mem : Memory) : Memory := fun x => if c.covers x then c.src (c.index x) else mem x

end Chunk

/-- A put, with the part of it that has been posted. -/
structure Put where
  posted : Chunk
  length : Nat
  raised : Bool

/-- A posted request; `read` is what the card has read from the staging buffer. -/
structure Request where
  chunk : Chunk
  read : Option (Nat → UInt8)

/-- Where the processor is in `put_chunked`. -/
inductive Cpu where
  | idle
  /-- The chunks that remain. -/
  | running (target : UInt16) (remote_addr : UInt64) (src : Nat → UInt8) (todo : List (Nat × Nat))
  /-- The chunk at `offset` has been copied to the staging buffer. -/
  | staged (target : UInt16) (remote_addr : UInt64) (src : Nat → UInt8) (offset len : Nat)
      (todo : List (Nat × Nat))

structure State where
  staging_buf_ : Nat → UInt8
  cpu : Cpu
  /-- The requests that have not completed, in the order in which they were posted. -/
  queue : List Request
  mem : Memory
  /-- The memory before the first put (ghost). -/
  initial : Memory
  /-- The puts, the latest first (ghost). -/
  puts : List Put

/-- The source byte of the last put that covers an address. -/
def expected (initial : Memory) (puts : List Put) : Memory := fun x =>
  match puts.find? fun p => p.posted.covers x with
  | some p => p.posted.src (p.posted.index x)
  | none => initial x

/-! ## Steps -/

inductive Act where
  | call
  | stage
  | post
  | fail
  | ret
  | read
  | complete

inductive Step : State → Act → State → Prop where
  /-- A put to a remote region, in whatever state the node's tables are. -/
  | call {s : State} (m : Manager) (connected : UInt16 → Bool) (target : UInt16) (dst_addr : GlobalAddress)
      (src : Nat → UInt8) (length : UInt64) {remote_addr : UInt64} {rkey : UInt32} (h : s.cpu = .idle)
      (hput : m.put connected target dst_addr length = .ok (.write remote_addr rkey)) :
      Step s .call
        { s with
          cpu := .running target remote_addr src (chunks length.toNat)
          puts := ⟨⟨target, remote_addr, src, 0⟩, length.toNat, false⟩ :: s.puts }
  | stage {s : State} {target : UInt16} {addr : UInt64} {src : Nat → UInt8} {o len : Nat}
      {todo : List (Nat × Nat)} (h : s.cpu = .running target addr src ((o, len) :: todo)) :
      Step s .stage
        { s with
          staging_buf_ := fun i => if i < len then src (o + i) else s.staging_buf_ i
          cpu := .staged target addr src o len todo }
  | post {s : State} {target : UInt16} {addr : UInt64} {src : Nat → UInt8} {o len : Nat}
      {todo : List (Nat × Nat)} {p : Put} {puts : List Put} (h : s.cpu = .staged target addr src o len todo)
      (hp : s.puts = p :: puts) :
      Step s .post
        { s with
          cpu := .running target addr src todo
          queue := s.queue ++ [⟨⟨target, addr + UInt64.ofNat o, fun i => src (o + i), len⟩, none⟩]
          puts := { p with posted := { p.posted with length := p.posted.length + len } } :: puts }
  /-- `post_rdma_write` fails and the put raises. -/
  | fail {s : State} {target : UInt16} {addr : UInt64} {src : Nat → UInt8} {o len : Nat}
      {todo : List (Nat × Nat)} {p : Put} {puts : List Put} (h : s.cpu = .staged target addr src o len todo)
      (hp : s.puts = p :: puts) :
      Step s .fail { s with cpu := .idle, puts := { p with raised := true } :: puts }
  | ret {s : State} {target : UInt16} {addr : UInt64} {src : Nat → UInt8}
      (h : s.cpu = .running target addr src []) : Step s .ret { s with cpu := .idle }
  /-- A request reads its bytes. -/
  | read {s : State} (before : List Request) {after : List Request} {r : Request} (h : s.queue = before ++ r :: after)
      (hread : r.read = none) :
      Step s .read { s with queue := before ++ { r with read := some s.staging_buf_ } :: after }
  /-- The first request to its target takes effect and completes. -/
  | complete {s : State} (before : List Request) {after : List Request} {r : Request} {bytes : Nat → UInt8}
      (h : s.queue = before ++ r :: after) (hfirst : ∀ q ∈ before, q.chunk.target ≠ r.chunk.target)
      (hread : r.read = some bytes) :
      Step s .complete
        { s with
          queue := before ++ after
          mem := { r.chunk with src := bytes }.write s.mem }

def init (s : State) : Prop := s.cpu = .idle ∧ s.queue = [] ∧ s.mem = s.initial ∧ s.puts = []

/-- The puts of one node, and its network card. -/
def system : System State Act := ⟨init, Step⟩

/-- A chunk is staged only if that changes no byte that a posted request has
    yet to read. -/
def Undisturbed (s : State) : Act → Prop
  | .stage => ∀ target addr src o len todo, s.cpu = .running target addr src ((o, len) :: todo) →
      ∀ r ∈ s.queue, r.read = none → ∀ i < r.chunk.length, i < len → src (o + i) = s.staging_buf_ i
  | _ => True

/-! ## Writing -/

namespace Chunk

variable {c d : Chunk} {mem : Memory} {x : UInt16 × UInt64}

theorem covers_iff : c.covers x ↔ x.1 = c.target ∧ c.index x < c.length := decide_eq_true_iff

/-- Only the bytes of the range matter. -/
theorem write_congr {src : Nat → UInt8} (h : ∀ i < c.length, src i = c.src i) :
    { c with src := src }.write mem = c.write mem := by
  funext x
  by_cases hx : c.covers x
  · have hlt := (covers_iff.mp hx).2
    exact (if_pos hx).trans ((h _ hlt).trans (if_pos hx).symm)
  · exact (if_neg hx).trans (if_neg hx).symm

theorem write_comm (h : c.target ≠ d.target) : c.write (d.write mem) = d.write (c.write mem) := by
  funext x
  by_cases hc : c.covers x
  · have hd : ¬ d.covers x := fun hd => h ((covers_iff.mp hc).1.symm.trans (covers_iff.mp hd).1)
    simp [write, hc, hd]
  · simp [write, hc]

/-- Writing a range and then the range behind it. -/
theorem write_append {target : UInt16} {addr : UInt64} {src : Nat → UInt8} {o len : Nat}
    (h : o + len < 2 ^ 64) :
    (Chunk.mk target (addr + UInt64.ofNat o) (fun i => src (o + i)) len).write
      ((Chunk.mk target addr src o).write mem) = (Chunk.mk target addr src (o + len)).write mem := by
  funext x
  have hx := (x.2 - addr).toNat_lt
  -- the position in the second range, modulo the size of the address space
  have hindex : (x.2 - (addr + UInt64.ofNat o)).toNat = (2 ^ 64 - o + (x.2 - addr).toNat) % 2 ^ 64 := by
    rw [UInt64.toNat_sub, UInt64.toNat_sub, UInt64.toNat_add, UInt64.toNat_ofNat']
    have := addr.toNat_lt
    have := x.2.toNat_lt
    omega
  simp only [write, covers_iff, index, hindex]
  by_cases ht : x.1 = target
  · simp only [ht, true_and]
    by_cases hlo : (x.2 - addr).toNat < o
    · rw [if_neg (by omega), if_pos hlo, if_pos (by omega)]
    · have hpos : (2 ^ 64 - o + (x.2 - addr).toNat) % 2 ^ 64 = (x.2 - addr).toNat - o := by omega
      rw [hpos]
      by_cases hhi : (x.2 - addr).toNat < o + len
      · rw [if_pos (by omega), if_pos hhi, Nat.add_sub_cancel' (by omega)]
      · rw [if_neg (by omega), if_neg hlo, if_neg hhi]
  · simp [ht]

end Chunk

theorem expected_cons (initial : Memory) (p : Put) (puts : List Put) :
    expected initial (p :: puts) = p.posted.write (expected initial puts) := by
  funext x
  by_cases hx : p.posted.covers x
  · simp [expected, Chunk.write, hx]
  · simp [expected, Chunk.write, hx]

/-- The effect of all requests in a queue, if each has read its own bytes. -/
def flush (queue : List Request) (mem : Memory) : Memory := queue.foldl (fun mem r => r.chunk.write mem) mem

theorem flush_write {c : Chunk} {queue : List Request} {mem : Memory}
    (h : ∀ q ∈ queue, q.chunk.target ≠ c.target) :
    flush queue (c.write mem) = c.write (flush queue mem) := by
  induction queue generalizing mem with
  | nil => rfl
  | cons q queue ih =>
    have hq := h q (List.mem_cons_self ..)
    simp only [flush, List.foldl_cons, Chunk.write_comm hq]
    exact ih fun q' hq' => h q' (List.mem_cons_of_mem _ hq')

/-! ## Delivery -/

/-- The puts that have ended. -/
def State.ended (s : State) : List Put :=
  match s.cpu with
  | .idle => s.puts
  | _ => s.puts.tail

structure Inv (s : State) : Prop where
  /-- What a request has yet to read is still in the staging buffer. -/
  unread : ∀ r ∈ s.queue, r.read = none → ∀ i < r.chunk.length, s.staging_buf_ i = r.chunk.src i
  read : ∀ r ∈ s.queue, ∀ bytes, r.read = some bytes → ∀ i < r.chunk.length, bytes i = r.chunk.src i
  effect : flush s.queue s.mem = expected s.initial s.puts
  running : ∀ target addr src todo, s.cpu = .running target addr src todo →
    ∃ o n puts, s.puts = ⟨⟨target, addr, src, o⟩, n, false⟩ :: puts ∧ Tiles n o todo ∧ n < 2 ^ 64
  staged : ∀ target addr src o len todo, s.cpu = .staged target addr src o len todo →
    (∃ n puts, s.puts = ⟨⟨target, addr, src, o⟩, n, false⟩ :: puts ∧ Tiles n (o + len) todo ∧ n < 2 ^ 64) ∧
      ∀ i < len, s.staging_buf_ i = src (o + i)
  whole : ∀ p ∈ s.ended, p.raised = false → p.posted.length = p.length

variable {s s' : State}

theorem Inv.call (h : Inv s) (hs : Step s .call s') : Inv s' := by
  cases hs with
  | call m connected target dst_addr src length hcpu hput =>
    have hwhole := h.whole
    rw [State.ended, hcpu] at hwhole
    refine ⟨h.unread, h.read, ?_, ?_, nofun, hwhole⟩
    · rw [h.effect, expected_cons]
      funext x
      simp [Chunk.write, Chunk.covers]
    · rintro _ _ _ _ ⟨⟩
      exact ⟨0, _, _, rfl, tiles_chunks _, length.toNat_lt⟩

theorem Inv.stage (h : Inv s) (hok : Undisturbed s .stage) (hs : Step s .stage s') : Inv s' := by
  cases hs with
  | @stage target addr src o len todo hcpu =>
    obtain ⟨o', n, puts, hputs, ⟨rfl, htiles⟩, hn⟩ := h.running _ _ _ _ hcpu
    have hwhole := h.whole
    rw [State.ended, hcpu] at hwhole
    refine ⟨fun r hr hread i hi => ?_, h.read, h.effect, nofun, ?_, hwhole⟩
    · dsimp only
      split
      case isTrue hlen =>
        rw [hok _ _ _ _ _ _ hcpu r hr hread i hi hlen]
        exact h.unread r hr hread i hi
      case isFalse => exact h.unread r hr hread i hi
    · rintro _ _ _ _ _ _ ⟨⟩
      exact ⟨⟨n, puts, hputs, htiles, hn⟩, fun i hi => if_pos hi⟩

theorem Inv.post (h : Inv s) (hs : Step s .post s') : Inv s' := by
  cases hs with
  | @post target addr src o len todo p puts hcpu hp =>
    obtain ⟨⟨n, puts', hputs, htiles, hn⟩, hstaged⟩ := h.staged _ _ _ _ _ _ hcpu
    obtain ⟨rfl, rfl⟩ := List.cons.inj (hp.symm.trans hputs)
    have hwhole := h.whole
    rw [State.ended, hcpu, hp] at hwhole
    refine ⟨fun r hr hread i hi => ?_, fun r hr bytes hread => ?_, ?_, ?_, nofun, hwhole⟩
    · rcases List.mem_append.mp hr with hr | hr
      · exact h.unread r hr hread i hi
      · obtain rfl := List.mem_singleton.mp hr
        exact hstaged i hi
    · rcases List.mem_append.mp hr with hr | hr
      · exact h.read r hr bytes hread
      · obtain rfl := List.mem_singleton.mp hr
        cases hread
    · have hfits := htiles.le
      rw [flush, List.foldl_append]
      change Chunk.write _ (flush s.queue s.mem) = _
      rw [h.effect, hp, expected_cons, expected_cons, Chunk.write_append (by omega)]
    · rintro _ _ _ _ ⟨⟩
      exact ⟨o + len, n, puts, rfl, htiles, hn⟩

theorem Inv.card {a : Act} (ha : a = .read ∨ a = .complete) (h : Inv s) (hs : Step s a s') :
    Inv s' := by
  cases hs with
  | @read before after r hqueue hread =>
    have hmem : r ∈ s.queue := by simp [hqueue]
    have hother : ∀ q, q ∈ before ∨ q ∈ after → q ∈ s.queue := by
      rintro q (hq | hq) <;> simp [hqueue, hq]
    refine ⟨fun q hq hnone => ?_, fun q hq bytes hsome => ?_, ?_, h.running, h.staged, h.whole⟩
    · rcases List.mem_append.mp hq with hq | hq
      · exact h.unread q (hother q (.inl hq)) hnone
      · rcases List.mem_cons.mp hq with rfl | hq
        · cases hnone
        · exact h.unread q (hother q (.inr hq)) hnone
    · rcases List.mem_append.mp hq with hq | hq
      · exact h.read q (hother q (.inl hq)) bytes hsome
      · rcases List.mem_cons.mp hq with rfl | hq
        · cases hsome
          exact h.unread r hmem hread
        · exact h.read q (hother q (.inr hq)) bytes hsome
    · rw [← h.effect, hqueue]
      simp [flush]
  | @complete before after r bytes hqueue hfirst hread =>
    have hmem : r ∈ s.queue := by simp [hqueue]
    have hother : ∀ q ∈ before ++ after, q ∈ s.queue := by
      intro q hq
      rcases List.mem_append.mp hq with hq | hq <;> simp [hqueue, hq]
    refine ⟨fun q hq => h.unread q (hother q hq), fun q hq => h.read q (hother q hq), ?_, h.running, h.staged,
      h.whole⟩
    -- nothing before the request goes to its node
    rw [Chunk.write_congr (h.read r hmem bytes hread), ← h.effect, hqueue]
    simp only [flush, List.foldl_append, List.foldl_cons]
    exact congrArg (flush after) (flush_write hfirst)
  | call | stage | post | fail | ret => simp at ha

theorem Inv.step {a : Act} (h : Inv s) (hok : Undisturbed s a) (hs : Step s a s') : Inv s' := by
  cases a with
  | call => exact h.call hs
  | stage => exact h.stage hok hs
  | post => exact h.post hs
  | fail =>
    cases hs with
    | @fail target addr src o len todo p puts hcpu hp =>
      have hwhole := h.whole
      rw [State.ended, hcpu, hp] at hwhole
      refine ⟨h.unread, h.read, ?_, nofun, nofun, ?_⟩
      · rw [h.effect, hp, expected_cons, expected_cons]
      · intro q hq hraised
        rcases List.mem_cons.mp hq with rfl | hq
        · cases hraised
        · exact hwhole q hq hraised
  | ret =>
    cases hs with
    | @ret target addr src hcpu =>
      obtain ⟨o, n, puts, hputs, htiles, hn⟩ := h.running _ _ _ _ hcpu
      have hwhole := h.whole
      rw [State.ended, hcpu, hputs] at hwhole
      refine ⟨h.unread, h.read, h.effect, nofun, nofun, ?_⟩
      intro q hq hraised
      change q ∈ s.puts at hq
      rw [hputs] at hq
      rcases List.mem_cons.mp hq with rfl | hq
      · exact htiles
      · exact hwhole q hq hraised
  | read => exact h.card (.inl rfl) hs
  | complete => exact h.card (.inr rfl) hs

/-- **Puts deliver their bytes**, in every run in which no chunk is staged over
    bytes that a posted request has yet to read: when no put is under way and all
    requests have completed, every byte is the source byte of the last put that
    covers it, and the puts that have not raised cover their whole range. -/
theorem puts_deliver {s : State} (h : system.Reach Undisturbed s) (hidle : s.cpu = .idle)
    (hdone : s.queue = []) :
    (∀ x, s.mem x = expected s.initial s.puts x) ∧ ∀ p ∈ s.puts, p.raised = false → p.posted.length = p.length := by
  have hinv : Inv s := by
    refine h.invariant ?_ fun _ _ _ => Inv.step
    rintro s ⟨hcpu, hqueue, hmem, hputs⟩
    refine ⟨by simp [hqueue], by simp [hqueue], ?_, by simp [hcpu], by simp [hcpu], by simp [State.ended, hcpu, hputs]⟩
    rw [hqueue, hmem, hputs]
    rfl
  have heffect := hinv.effect
  have hwhole := hinv.whole
  rw [hdone] at heffect
  rw [State.ended, hidle] at hwhole
  exact ⟨fun x => congrFun heffect x, hwhole⟩

/-! ### Two runs -/

/-- Node 0, which knows a region of 4 MiB on node 1. -/
def writer : Manager :=
  { Manager.new 0 with catalog_ := MemoryCatalog.empty.insert 1 1 ⟨4096, 4194304, 7, 3, 1⟩ }

theorem put_writer {offset length : UInt64} (ho : offset < 4194304) (hl : length ≤ 4194304 - offset) :
    writer.put (fun _ => true) 1 ⟨1, 1, offset⟩ length = .ok (.write (4096 + offset) 7) := by
  have hlookup : writer.catalog_.lookup 1 1 = some ⟨4096, 4194304, 7, 3, 1⟩ := by
    simp [writer, MemoryCatalog.lookup_insert]
  have hlength : ¬ 4194304 - offset < length := UInt64.not_lt.mpr hl
  simp [Manager.put, Manager.resolve, Manager.lookup_remote, hlookup, show writer.node_id_ = 0 from rfl, ho,
    hlength]

def cleared : State := ⟨fun _ => 0, .idle, [], fun _ => 0, fun _ => 0, []⟩

/-- One put, carried out to its end. -/
theorem puts_deliver_one : ∃ s, system.Reach Undisturbed s ∧ s.mem (1, 4096) = 5 ∧
    ∀ x, s.mem x = expected s.initial s.puts x := by
  have h0 : system.Reach Undisturbed cleared := .init ⟨rfl, rfl, rfl, rfl⟩
  have h1 := h0.next
    (.call writer (fun _ => true) 1 ⟨1, 1, 0⟩ (fun _ => 5) 1 rfl (put_writer (by decide) (by decide)))
  have h2 := h1.next (.stage rfl) (by simp [Undisturbed, cleared])
  have h3 := h2.next (.post rfl rfl)
  have h4 := h3.next (.ret rfl)
  have h5 := h4.next (.read [] rfl rfl)
  have h6 := h5.next (.complete [] rfl nofun rfl)
  exact ⟨_, h6, rfl, (puts_deliver h6 rfl rfl).1⟩

/-- The second put is staged before the card has read the bytes of the first. -/
theorem puts_overwrite : ∃ s, system.Reachable s ∧ s.cpu = .idle ∧ s.queue = [] ∧
    s.mem (1, 4096) = 2 ∧ expected s.initial s.puts (1, 4096) = 1 := by
  have h0 : system.Reachable cleared := .init ⟨rfl, rfl, rfl, rfl⟩
  have h1 := h0.next
    (.call writer (fun _ => true) 1 ⟨1, 1, 0⟩ (fun _ => 1) 1 rfl (put_writer (by decide) (by decide)))
  have h2 := h1.next (.stage rfl)
  have h3 := h2.next (.post rfl rfl)
  have h4 := h3.next (.ret rfl)
  have h5 := h4.next
    (.call writer (fun _ => true) 1 ⟨1, 1, 8⟩ (fun _ => 2) 1 rfl (put_writer (by decide) (by decide)))
  have h6 := h5.next (.stage rfl)
  have h7 := h6.next (.post rfl rfl)
  have h8 := h7.next (.ret rfl)
  have h9 := h8.next (.read [] rfl rfl)
  have h10 := h9.next (.complete [] rfl nofun rfl)
  have h11 := h10.next (.read [] rfl rfl)
  have h12 := h11.next (.complete [] rfl nofun rfl)
  exact ⟨_, h12, rfl, rfl, rfl, rfl⟩

end Puts

end Mccl.Dmem
