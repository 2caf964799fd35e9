import Mccl.Framework.Arrays

/-! # The Command Stream of an Agent

    Model of the control protocol between the head and an agent: what
    `DistributedMetalRuntime` writes on the agent's socket
    (`runtime/DistributedMetalRuntime.cpp`) and how `handle_connection` reads it
    (`agent/Agent.cpp`, `agent/Protocol.hpp`).

    * **Layout**: a `ShaderRunRequest` in memory has 88 bytes, with padding before
      `element_count` and at the end. Its `WIRE_SIZE` is the sum of the fields, 81.
    * The head sends the object, the agent reads `WIRE_SIZE` bytes, so that seven
      bytes of every request stay in the stream and are read as the beginning of
      the next header.
    * `stream_agrees_iff`: the agent reads what the head has sent exactly if no
      `SHADER_RUN` is followed by another command. -/

namespace Mccl.Agent

open Arrays

/-! ## The Wire Format -/

inductive AgentCmd where
  | PING
  | REGISTER
  | DEREGISTER
  | SHADER_LOAD
  | SHADER_RUN
  | SHADER_SYNC
  | STATS
  | SHUTDOWN
deriving DecidableEq

namespace AgentCmd

def value : AgentCmd → UInt16
  | PING => 0x0001
  | REGISTER => 0x0010
  | DEREGISTER => 0x0011
  | SHADER_LOAD => 0x0020
  | SHADER_RUN => 0x0021
  | SHADER_SYNC => 0x0022
  | STATS => 0x0030
  | SHUTDOWN => 0xFFFF

/-- The command with the given value. -/
def ofValue (v : UInt16) : Option AgentCmd :=
  [PING, REGISTER, DEREGISTER, SHADER_LOAD, SHADER_RUN, SHADER_SYNC, STATS, SHUTDOWN].find? fun c => c.value = v

end AgentCmd

structure AgentHeader where
  cmd : UInt16
  status : UInt16
  payload_len : UInt32
deriving DecidableEq

namespace AgentHeader

def WIRE_SIZE : Nat := 8

/-- The object in memory; it has no padding. -/
def bytes (h : AgentHeader) : List UInt8 :=
  littleEndian 2 h.cmd.toNat ++ littleEndian 2 h.status.toNat ++ littleEndian 4 h.payload_len.toNat

def ofBytes (b : List UInt8) : AgentHeader where
  cmd := UInt16.ofNat (readAt 2 0 b)
  status := UInt16.ofNat (readAt 2 2 b)
  payload_len := UInt32.ofNat (readAt 4 4 b)

@[simp] theorem length_bytes (h : AgentHeader) : h.bytes.length = WIRE_SIZE := by simp [bytes, WIRE_SIZE]

theorem ofBytes_bytes (h : AgentHeader) (rest : List UInt8) : ofBytes (h.bytes ++ rest) = h := by
  have hcmd : readAt 2 0 (h.bytes ++ rest) = h.cmd.toNat := by
    simpa [bytes] using readAt_append [] (littleEndian 2 h.status.toNat ++
      (littleEndian 4 h.payload_len.toNat ++ rest)) rfl h.cmd.toNat_lt
  have hstatus : readAt 2 2 (h.bytes ++ rest) = h.status.toNat := by
    simpa [bytes] using readAt_append (littleEndian 2 h.cmd.toNat)
      (littleEndian 4 h.payload_len.toNat ++ rest) (by simp) h.status.toNat_lt
  have hlen : readAt 4 4 (h.bytes ++ rest) = h.payload_len.toNat := by
    simpa [bytes] using readAt_append (littleEndian 2 h.cmd.toNat ++ littleEndian 2 h.status.toNat) rest
      (by simp) h.payload_len.toNat_lt
  simp [ofBytes, hcmd, hstatus, hlen]

end AgentHeader

/-! ### Objects in memory -/

/-- The next multiple of `align` from `o` on. -/
def alignUp (o align : Nat) : Nat := (o + align - 1) / align * align

/-- The offsets of members with the given sizes and alignments, the first of them
    placed from `o` on, and the end of the last one. -/
def place : Nat → List (Nat × Nat) → List Nat × Nat
  | o, [] => ([], o)
  | o, (size, align) :: rest =>
    let r := place (alignUp o align + size) rest
    (alignUp o align :: r.1, r.2)

def offsetsOf (members : List (Nat × Nat)) : List Nat := (place 0 members).1

def sizeOfMembers (members : List (Nat × Nat)) : Nat :=
  alignUp (place 0 members).2 (members.foldl (fun a m => max a m.2) 1)

/-- The bytes of a character array. -/
def chars {n : Nat} (a : Fin n → UInt8) : List UInt8 := List.ofFn a

@[simp] theorem length_chars {n : Nat} (a : Fin n → UInt8) : (chars a).length = n := List.length_ofFn

theorem getD_chars {n : Nat} (a : Fin n → UInt8) (rest : List UInt8) (i : Fin n) :
    (chars a ++ rest).getD i 0 = a i := by
  rw [List.getD_eq_getElem?_getD, List.getElem?_append_left (by simp)]
  simp [chars]

/-- `scale` is kept as the bits of the float. -/
structure ShaderRunRequest where
  kernel_name : Fin 64 → UInt8
  region_id : UInt32
  element_count : UInt64
  scale : UInt32
  op : UInt8

namespace ShaderRunRequest

def WIRE_SIZE : Nat := 64 + 4 + 8 + 4 + 1

/-- Sizes and alignments of the members. -/
def members : List (Nat × Nat) := [(64, 1), (4, 4), (8, 8), (4, 4), (1, 1)]

def SIZEOF : Nat := sizeOfMembers members

example : offsetsOf members = [0, 64, 72, 80, 84] ∧ SIZEOF = 88 := by decide

/-- The object in memory. `pad` gives the bytes between `region_id` and
    `element_count` and those after `op`. -/
def bytes (req : ShaderRunRequest) (pad : Nat → UInt8) : List UInt8 :=
  chars req.kernel_name ++ littleEndian 4 req.region_id.toNat ++ [pad 0, pad 1, pad 2, pad 3] ++
    littleEndian 8 req.element_count.toNat ++ littleEndian 4 req.scale.toNat ++ [req.op] ++
    [pad 4, pad 5, pad 6]

def ofBytes (b : List UInt8) : ShaderRunRequest where
  kernel_name i := b.getD i 0
  region_id := UInt32.ofNat (readAt 4 64 b)
  element_count := UInt64.ofNat (readAt 8 72 b)
  scale := UInt32.ofNat (readAt 4 80 b)
  op := b.getD 84 0

theorem ofBytes_bytes (req : ShaderRunRequest) (pad : Nat → UInt8) : ofBytes (req.bytes pad) = req := by
  have hname : ∀ i : Fin 64, (req.bytes pad).getD i 0 = req.kernel_name i := by
    intro i
    simp only [bytes, List.append_assoc]
    exact getD_chars ..
  have hregion : readAt 4 64 (req.bytes pad) = req.region_id.toNat := by
    simpa [bytes] using readAt_append (chars req.kernel_name) ([pad 0, pad 1, pad 2, pad 3] ++
      (littleEndian 8 req.element_count.toNat ++ (littleEndian 4 req.scale.toNat ++ ([req.op] ++
      [pad 4, pad 5, pad 6])))) (by simp) req.region_id.toNat_lt
  have hcount : readAt 8 72 (req.bytes pad) = req.element_count.toNat := by
    simpa [bytes] using readAt_append (chars req.kernel_name ++ (littleEndian 4 req.region_id.toNat ++
      [pad 0, pad 1, pad 2, pad 3])) (littleEndian 4 req.scale.toNat ++ ([req.op] ++ [pad 4, pad 5, pad 6]))
      (by simp) req.element_count.toNat_lt
  have hscale : readAt 4 80 (req.bytes pad) = req.scale.toNat := by
    simpa [bytes] using readAt_append (chars req.kernel_name ++ (littleEndian 4 req.region_id.toNat ++
      ([pad 0, pad 1, pad 2, pad 3] ++ littleEndian 8 req.element_count.toNat))) ([req.op] ++
      [pad 4, pad 5, pad 6]) (by simp) req.scale.toNat_lt
  have hop : (req.bytes pad).getD 84 0 = req.op := by
    simp [bytes]
  simp only [ofBytes, hname, hregion, hcount, hscale, hop, UInt32.ofNat_toNat, UInt64.ofNat_toNat]

end ShaderRunRequest

/-! ## The Head -/

/-- `strncpy` of at most 63 characters of a C string into a zeroed array. -/
def strncpy63 (src : List UInt8) : Fin 64 → UInt8 := fun i =>
  if i.val < 63 then (src.takeWhile (· ≠ 0)).getD i 0 else 0

/-- The request that both dispatch functions build. -/
def shaderRun (kernel_name : List UInt8) (element_count : UInt64) : ShaderRunRequest where
  kernel_name := strncpy63 kernel_name
  region_id := 0
  element_count := element_count
  scale := 0
  op := 0

/-- What the head writes on the socket of an agent. -/
inductive Request where
  | run (kernel_name : List UInt8) (element_count : UInt64)
  | sync
  | shutdown

namespace Request

def header : Request → AgentHeader
  | run _ _ => ⟨AgentCmd.SHADER_RUN.value, 0, UInt32.ofNat ShaderRunRequest.WIRE_SIZE⟩
  | sync => ⟨AgentCmd.SHADER_SYNC.value, 0, 0⟩
  | shutdown => ⟨AgentCmd.SHUTDOWN.value, 0, 0⟩

/-- The object that follows the header. -/
def body : Request → Option ShaderRunRequest
  | run kernel_name element_count => some (shaderRun kernel_name element_count)
  | _ => none

/-- The bytes of `send(&hdr, sizeof(hdr))` and `send(&req, sizeof(req))`. -/
def bytes (r : Request) (pad : Nat → UInt8) : List UInt8 :=
  r.header.bytes ++ (r.body.map fun req => req.bytes pad).getD []

end Request

/-- A shard of a data-parallel dispatch. -/
structure NodeWork where
  node_id : UInt16
  grid_size : UInt64

structure PipelineStage where
  node_id : UInt16
  kernel_name : List UInt8
  forward_buffer_size : UInt64

/-- The requests of `dispatch_data_parallel` for the agent `nid`. -/
def dispatch_data_parallel (nid : UInt16) (kernel_name : List UInt8) (node_work : List NodeWork) : List Request :=
  node_work.filterMap fun nw => if nw.node_id = nid then some (.run kernel_name nw.grid_size) else none

/-- One stage of a pipeline is told to run. -/
def runStage (nid : UInt16) (stage : PipelineStage) (element_count : UInt64) : List Request :=
  if stage.node_id = nid then [.run stage.kernel_name element_count] else []

def sync_all : List Request := [.sync]

/-- The requests of `dispatch_pipeline` for the agent `nid`. -/
def dispatch_pipeline (nid : UInt16) (stages : List PipelineStage) (num_micro_batches : Int) : List Request :=
  -- warm-up: micro-batch `mb` runs the stages up to `mb`
  (List.range (min num_micro_batches stages.length).toNat).flatMap (fun mb =>
    (stages.take (mb + 1)).flatMap fun stage => runStage nid stage (stage.forward_buffer_size / 4)) ++
  -- steady state
  (List.range (num_micro_batches - stages.length).toNat).flatMap (fun _ =>
    stages.flatMap fun stage => runStage nid stage (stage.forward_buffer_size / 4)) ++
  -- cool-down: turn `k` runs the stages from `k + 1` on, with no elements
  (List.range (stages.length - 1)).flatMap (fun k =>
    (stages.drop (k + 1)).flatMap fun stage => runStage nid stage 0) ++
  sync_all

/-- A call on the head. -/
inductive Call where
  | data_parallel (kernel_name : List UInt8) (node_work : List NodeWork)
  | pipeline (stages : List PipelineStage) (num_micro_batches : Int)
  | sync
  | disconnect (node_id : UInt16)

/-- The requests on the socket of `nid` for a list of calls. Each call may be cut
    short by an exception: `sent` is the number of its requests that are sent. Once
    the agent is disconnected its socket is closed. -/
def emitted (nid : UInt16) : List (Call × Nat) → List Request
  | [] => []
  | (.data_parallel kernel_name node_work, sent) :: rest =>
    (dispatch_data_parallel nid kernel_name node_work).take sent ++ emitted nid rest
  | (.pipeline stages num_micro_batches, sent) :: rest =>
    (dispatch_pipeline nid stages num_micro_batches).take sent ++ emitted nid rest
  | (.sync, sent) :: rest => sync_all.take sent ++ emitted nid rest
  | (.disconnect node_id, _) :: rest => if node_id = nid then [.shutdown] else emitted nid rest

/-- The bytes of a sequence of requests; `pads` gives the padding of each. -/
def stream : (Nat → Nat → UInt8) → List Request → List UInt8
  | _, [] => []
  | pads, r :: rest => r.bytes (pads 0) ++ stream (fun k => pads (k + 1)) rest

/-! ## The Agent -/

/-- `recv_all`: the bytes and the rest of the stream, or nothing if the stream ends
    before. -/
def recv_all (n : Nat) (bytes : List UInt8) : Option (List UInt8 × List UInt8) :=
  if n ≤ bytes.length then some (bytes.take n, bytes.drop n) else none

/-- A command as the agent has read it. -/
structure Command where
  header : AgentHeader
  request : Option ShaderRunRequest

/-- The bytes that a command's handler reads after the header. -/
def payload : Option AgentCmd → Nat
  | some .REGISTER => 8 + 8 + 1
  | some .DEREGISTER => 4
  | some .SHADER_RUN => ShaderRunRequest.WIRE_SIZE
  | _ => 0

/-- The loop of `handle_connection`, which ends with the stream or after a
    `SHUTDOWN`. A request is read into a zeroed object. -/
def handleLoop : Nat → List UInt8 → List Command
  | 0, _ => []
  | fuel + 1, bytes =>
    match recv_all AgentHeader.WIRE_SIZE bytes with
    | none => []
    | some (head, rest) =>
      let hdr := AgentHeader.ofBytes head
      match recv_all (payload (AgentCmd.ofValue hdr.cmd)) rest with
      -- The header has been read when the payload ends early.
      | none => [⟨hdr, none⟩]
      | some (body, rest) =>
        match AgentCmd.ofValue hdr.cmd with
        -- The last seven bytes of the object are not read and keep their zeros.
        | some .SHADER_RUN =>
          let zeros := List.replicate (ShaderRunRequest.SIZEOF - ShaderRunRequest.WIRE_SIZE) 0
          ⟨hdr, some (ShaderRunRequest.ofBytes (body ++ zeros))⟩ :: handleLoop fuel rest
        | some .SHUTDOWN => [⟨hdr, none⟩]
        | _ => ⟨hdr, none⟩ :: handleLoop fuel rest

/-- Every turn of the loop takes a header from the stream, so its length is enough
    fuel. -/
def handle_connection (bytes : List UInt8) : List Command := handleLoop bytes.length bytes

theorem recv_all_append {n : Nat} {front rest : List UInt8} (h : front.length = n) :
    recv_all n (front ++ rest) = some (front, rest) := by
  rw [recv_all, if_pos (by simp [h]), List.take_left' h, List.drop_left' h]

theorem recv_all_zero (bytes : List UInt8) : recv_all 0 bytes = some ([], bytes) := by
  rw [recv_all, if_pos (Nat.zero_le _), List.take_zero, List.drop_zero]

/-! ## Reading What Was Sent -/

/-- The command that the agent should read. -/
def Request.command (r : Request) : Command := ⟨r.header, r.body⟩

/-- What stays of a request in the stream: the end of `scale`, `op` and padding. -/
def leftover (pad : Nat → UInt8) : List UInt8 := [0, 0, 0, 0, pad 4, pad 5, pad 6]

/-- The first `WIRE_SIZE` bytes of the head's request, read into a zeroed object, are
    the request; its `scale` and `op` are zero in any case. -/
theorem shaderRun_split (kernel_name : List UInt8) (element_count : UInt64) (pad : Nat → UInt8) :
    ∃ front, (shaderRun kernel_name element_count).bytes pad = front ++ leftover pad ∧
      front.length = ShaderRunRequest.WIRE_SIZE ∧
      ShaderRunRequest.ofBytes (front ++
        List.replicate (ShaderRunRequest.SIZEOF - ShaderRunRequest.WIRE_SIZE) 0) =
        shaderRun kernel_name element_count := by
  refine ⟨chars (strncpy63 kernel_name) ++ (littleEndian 4 0 ++ ([pad 0, pad 1, pad 2, pad 3] ++
    (littleEndian 8 element_count.toNat ++ [0]))), ?_, ?_, ?_⟩
  · simp [ShaderRunRequest.bytes, shaderRun, leftover, littleEndian, List.range_succ, byteAt]
  · simp [ShaderRunRequest.WIRE_SIZE]
  · -- read back with zeros in the padding after `op`, as the agent has them
    have hzeros := ShaderRunRequest.ofBytes_bytes (shaderRun kernel_name element_count)
      fun k => if k < 4 then pad k else 0
    rw [← hzeros]
    congr 1
    simp [ShaderRunRequest.bytes, shaderRun, littleEndian, List.range_succ, byteAt]
    decide

theorem handleLoop_header (fuel : Nat) (hdr : AgentHeader) (rest : List UInt8) :
    handleLoop (fuel + 1) (hdr.bytes ++ rest) =
      match recv_all (payload (AgentCmd.ofValue hdr.cmd)) rest with
      | none => [⟨hdr, none⟩]
      | some (body, rest) =>
        match AgentCmd.ofValue hdr.cmd with
        | some .SHADER_RUN =>
          ⟨hdr, some (ShaderRunRequest.ofBytes (body ++
            List.replicate (ShaderRunRequest.SIZEOF - ShaderRunRequest.WIRE_SIZE) 0))⟩ :: handleLoop fuel rest
        | some .SHUTDOWN => [⟨hdr, none⟩]
        | _ => ⟨hdr, none⟩ :: handleLoop fuel rest := by
  have hhdr : AgentHeader.ofBytes hdr.bytes = hdr := by simpa using AgentHeader.ofBytes_bytes hdr []
  rw [handleLoop, recv_all_append hdr.length_bytes]
  simp only [hhdr]

theorem handleLoop_sync (fuel : Nat) (pad : Nat → UInt8) (rest : List UInt8) :
    handleLoop (fuel + 1) (Request.sync.bytes pad ++ rest) = Request.sync.command :: handleLoop fuel rest := by
  have hcmd : AgentCmd.ofValue Request.sync.header.cmd = some .SHADER_SYNC := rfl
  have hpayload : payload (some .SHADER_SYNC) = 0 := rfl
  simp only [Request.bytes, Request.body, Option.map_none, Option.getD_none, List.append_nil]
  rw [handleLoop_header, hcmd, hpayload, recv_all_zero]
  rfl

theorem handleLoop_shutdown (fuel : Nat) (pad : Nat → UInt8) (rest : List UInt8) :
    handleLoop (fuel + 1) (Request.shutdown.bytes pad ++ rest) = [Request.shutdown.command] := by
  have hcmd : AgentCmd.ofValue Request.shutdown.header.cmd = some .SHUTDOWN := rfl
  have hpayload : payload (some .SHUTDOWN) = 0 := rfl
  simp only [Request.bytes, Request.body, Option.map_none, Option.getD_none, List.append_nil]
  rw [handleLoop_header, hcmd, hpayload, recv_all_zero]
  rfl

/-- The request is read, and seven of its bytes stay. -/
theorem handleLoop_run (fuel : Nat) (kernel_name : List UInt8) (element_count : UInt64) (pad : Nat → UInt8)
    (rest : List UInt8) :
    handleLoop (fuel + 1) ((Request.run kernel_name element_count).bytes pad ++ rest) =
      (Request.run kernel_name element_count).command :: handleLoop fuel (leftover pad ++ rest) := by
  obtain ⟨front, hbytes, hlen, hread⟩ := shaderRun_split kernel_name element_count pad
  have hcmd : AgentCmd.ofValue (Request.run kernel_name element_count).header.cmd = some .SHADER_RUN := rfl
  simp only [Request.bytes, Request.body, Option.map_some, Option.getD_some, hbytes, List.append_assoc]
  rw [handleLoop_header, hcmd, payload, recv_all_append hlen]
  simp only [hread]
  rfl

theorem handleLoop_short {fuel : Nat} {bytes : List UInt8} (h : bytes.length < AgentHeader.WIRE_SIZE) :
    handleLoop fuel bytes = [] := by
  cases fuel with
  | zero => rfl
  | succ fuel => rw [handleLoop, recv_all, if_neg (Nat.not_le.mpr h)]

/-- Whatever follows what is left of a request, the agent reads a header with command
    zero there. -/
theorem handleLoop_leftover (fuel : Nat) (pad : Nat → UInt8) (b : UInt8) (rest : List UInt8) :
    ∃ hdr commands, handleLoop (fuel + 1) (leftover pad ++ b :: rest) = ⟨hdr, none⟩ :: commands ∧ hdr.cmd = 0 := by
  have hsplit : leftover pad ++ b :: rest = (leftover pad ++ [b]) ++ rest := by simp
  -- `cmd` is read from the zeros of `scale`, and no command has value zero
  have hcmd : (AgentHeader.ofBytes (leftover pad ++ [b])).cmd = 0 := by
    simp [AgentHeader.ofBytes, leftover, readAt, Arrays.ofBytes]
  have hnone : AgentCmd.ofValue 0 = none := by decide
  refine ⟨AgentHeader.ofBytes (leftover pad ++ [b]), handleLoop fuel rest, ?_, hcmd⟩
  rw [hsplit, handleLoop, recv_all_append (by simp [leftover, AgentHeader.WIRE_SIZE])]
  simp only [hcmd, hnone, payload, recv_all_zero]

theorem Request.cmd_ne_zero (r : Request) : r.header.cmd ≠ 0 := by
  cases r with
  | run => exact (by decide : AgentCmd.SHADER_RUN.value ≠ 0)
  | sync => exact (by decide : AgentCmd.SHADER_SYNC.value ≠ 0)
  | shutdown => exact (by decide : AgentCmd.SHUTDOWN.value ≠ 0)

/-- Only the last request may be a `SHUTDOWN`; after it the socket is closed. -/
def ShutdownLast (requests : List Request) : Prop := .shutdown ∉ requests.dropLast

/-- Only the last request may be a `SHADER_RUN`. -/
def RunLast (requests : List Request) : Prop := ∀ r ∈ requests.dropLast, r.body = none

theorem stream_cons (pads : Nat → Nat → UInt8) (r : Request) (rest : List Request) :
    ∃ b bytes, stream pads (r :: rest) = b :: bytes := by
  have hlen : 0 < (stream pads (r :: rest)).length := by
    simp [stream, Request.bytes, AgentHeader.WIRE_SIZE]
  obtain ⟨b, bytes, heq⟩ := List.exists_cons_of_length_pos hlen
  exact ⟨b, bytes, heq⟩

theorem handleLoop_stream {requests : List Request} (hshut : ShutdownLast requests) {fuel : Nat}
    (hfuel : requests.length ≤ fuel) (pads : Nat → Nat → UInt8) :
    handleLoop fuel (stream pads requests) = requests.map Request.command ↔ RunLast requests := by
  -- the loop and the list are followed together; `pads` moves along with the requests
  induction requests generalizing fuel pads with
  | nil =>
    refine iff_of_true ?_ (fun r hr => absurd hr List.not_mem_nil)
    exact handleLoop_short (by simp [stream, AgentHeader.WIRE_SIZE])
  | cons r rest ih =>
    obtain ⟨fuel, rfl⟩ : ∃ k, fuel = k + 1 := ⟨fuel - 1, by simp at hfuel; omega⟩
    cases rest with
    | nil =>
      -- the last request is read in any case
      refine iff_of_true ?_ (fun r hr => absurd hr List.not_mem_nil)
      simp only [stream, List.map_cons, List.map_nil]
      cases r with
      | run kernel_name element_count =>
        rw [handleLoop_run, handleLoop_short (by simp [leftover, AgentHeader.WIRE_SIZE])]
      | sync => rw [handleLoop_sync, handleLoop_short (by decide)]
      | shutdown => rw [handleLoop_shutdown]
    | cons r' rest =>
      have hshut' : ShutdownLast (r' :: rest) := fun hmem => hshut (List.mem_cons_of_mem _ hmem)
      cases r with
      | shutdown => exact absurd List.mem_cons_self hshut
      | sync =>
        rw [stream, handleLoop_sync, List.map_cons, List.cons_inj_right, ih hshut' (by simpa using hfuel)]
        refine ⟨fun h => List.forall_mem_cons.mpr ⟨rfl, h⟩, fun h => (List.forall_mem_cons.mp h).2⟩
      | run kernel_name element_count =>
        -- the next header is read from what is left of this request
        refine iff_of_false ?_ (fun h => Option.some_ne_none _ (List.forall_mem_cons.mp h).1)
        intro heq
        obtain ⟨fuel, rfl⟩ : ∃ k, fuel = k + 1 := ⟨fuel - 1, by simp at hfuel; omega⟩
        obtain ⟨b, bytes, hb⟩ := stream_cons (fun k => pads (k + 1)) r' rest
        obtain ⟨hdr, commands, hread, hzero⟩ := handleLoop_leftover fuel (pads 0) b bytes
        rw [stream, handleLoop_run, hb, hread, List.map_cons, List.map_cons, List.cons_inj_right] at heq
        have hhdr : hdr = r'.header := congrArg Command.header (List.cons.inj heq).1
        exact r'.cmd_ne_zero (hhdr ▸ hzero)

/-! ### What the head emits -/

theorem shutdown_notMem_dispatch_data_parallel (nid : UInt16) (kernel_name : List UInt8) (node_work : List NodeWork) :
    .shutdown ∉ dispatch_data_parallel nid kernel_name node_work := by
  intro hmem
  obtain ⟨nw, -, heq⟩ := List.mem_filterMap.mp hmem
  split at heq <;> cases heq

theorem shutdown_notMem_runStage (nid : UInt16) (stage : PipelineStage) (element_count : UInt64) :
    .shutdown ∉ runStage nid stage element_count := by
  unfold runStage
  split <;> simp

theorem shutdown_notMem_dispatch_pipeline (nid : UInt16) (stages : List PipelineStage) (num_micro_batches : Int) :
    .shutdown ∉ dispatch_pipeline nid stages num_micro_batches := by
  simp only [dispatch_pipeline, sync_all, List.mem_append, List.mem_flatMap, List.mem_singleton]
  rintro (((⟨_, -, stage, -, hmem⟩ | ⟨_, -, stage, -, hmem⟩) | ⟨_, -, stage, -, hmem⟩) | hmem)
  · exact shutdown_notMem_runStage _ _ _ hmem
  · exact shutdown_notMem_runStage _ _ _ hmem
  · exact shutdown_notMem_runStage _ _ _ hmem
  · cases hmem

/-- Requests without a `SHUTDOWN` may precede. -/
theorem ShutdownLast.append {before requests : List Request} (hbefore : .shutdown ∉ before)
    (h : ShutdownLast requests) : ShutdownLast (before ++ requests) := by
  intro hmem
  rw [List.dropLast_append] at hmem
  split at hmem
  · exact hbefore (List.dropLast_subset _ hmem)
  · rcases List.mem_append.mp hmem with hmem | hmem
    · exact hbefore hmem
    · exact h hmem

theorem shutdownLast_emitted (nid : UInt16) (calls : List (Call × Nat)) : ShutdownLast (emitted nid calls) := by
  induction calls with
  | nil => exact List.not_mem_nil
  | cons call rest ih =>
    obtain ⟨call, sent⟩ := call
    cases call with
    | data_parallel kernel_name node_work =>
      exact ih.append fun hmem =>
        shutdown_notMem_dispatch_data_parallel _ _ _ (List.mem_of_mem_take hmem)
    | pipeline stages num_micro_batches =>
      exact ih.append fun hmem => shutdown_notMem_dispatch_pipeline _ _ _ (List.mem_of_mem_take hmem)
    | sync =>
      refine ih.append fun hmem => ?_
      have hsync := List.mem_singleton.mp (List.mem_of_mem_take hmem)
      cases hsync
    | disconnect node_id =>
      -- nothing is emitted after the `SHUTDOWN`
      rw [emitted]
      split
      · exact List.not_mem_nil
      · exact ih

theorem length_le_stream (pads : Nat → Nat → UInt8) (requests : List Request) :
    requests.length ≤ (stream pads requests).length := by
  induction requests generalizing pads with
  | nil => exact Nat.le_refl _
  | cons r rest ih =>
    have hrest := ih fun k => pads (k + 1)
    simp only [stream, Request.bytes, List.length_append, List.length_cons, AgentHeader.length_bytes,
      AgentHeader.WIRE_SIZE]
    omega

/-- The agent reads the requests. -/
def Agrees (pads : Nat → Nat → UInt8) (requests : List Request) : Prop :=
  handle_connection (stream pads requests) = requests.map Request.command

/-- **The command stream**: whatever the head emits on the socket of an agent, the
    agent reads the same headers and requests if and only if no `SHADER_RUN` is
    followed by another command. -/
theorem stream_agrees_iff (nid : UInt16) (calls : List (Call × Nat)) (pads : Nat → Nat → UInt8) :
    Agrees pads (emitted nid calls) ↔ RunLast (emitted nid calls) :=
  handleLoop_stream (shutdownLast_emitted nid calls) (length_le_stream pads _) pads

/-- A dispatch and the `sync_all` after it: instead of the `SHADER_SYNC` the agent
    reads a header of seven bytes of the request and the first byte of the header. -/
theorem sync_after_run_misread :
    emitted 1 [(.data_parallel [107] [⟨1, 16⟩], 1), (.sync, 1)] = [.run [107] 16, .sync] ∧
    handle_connection (stream (fun _ _ => 0) [.run [107] 16, .sync]) =
      [(Request.run [107] 16).command, ⟨⟨0, 0, 0x22000000⟩, none⟩] := by
  refine ⟨rfl, ?_⟩
  have hlen : (stream (fun _ _ => 0) [.run [107] 16, .sync]).length = 103 + 1 := by decide
  rw [handle_connection, hlen, stream, handleLoop_run]
  rfl

end Mccl.Agent
