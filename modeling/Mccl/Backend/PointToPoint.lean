import Mccl.Backend.Batches
import Mccl.Framework.Duo

/-! # Point to Point

    One rank sends frames with `ProcessGroupMCCL::send`, another takes them with
    `ProcessGroupMCCL::recv`. A frame is a header of tag and size, and the
    payload. The ghost tag of a call is its number, so that `Net.matched` says
    that every call of `recv` has read nothing but bytes of its own frame. -/

namespace Mccl

open ForkJoin Arrays

variable {D : Device UInt8}

/-! ## Calls and frames -/

/-- The arguments of a call of `send` or `recv`. -/
structure Message where
  tag : Int32
  tensor : Tensor

/-- Calls of `send`, the first of which has number `i`. -/
def sends (dst_rank : Nat) : (i : Nat) → List Message → List (Nat × RankOp)
  | _, [] => []
  | i, m :: ms => (i, .send [m.tensor] dst_rank m.tag) :: sends dst_rank (i + 1) ms

def recvs (src_rank : Nat) : (i : Nat) → List Message → List (Nat × RankOp)
  | _, [] => []
  | i, m :: ms => (i, .recv [m.tensor] src_rank m.tag) :: recvs src_rank (i + 1) ms

/-- What goes over the wire. -/
structure Frame where
  tag : Int32
  payload : List UInt8

/-- The size as the header has it. -/
def wireSize (t : Tensor) : UInt32 := UInt32.ofNat t.nbytes

/-- The sender in front of its first byte. -/
def framed (i : Nat) (m : Message) (s : RankState D) : RankState D :=
  { staged m.tensor (setTag i s) with
    mem := store uint32Codec (staged m.tensor (setTag i s)).mem (heap 0) 2
      (header m.tag (wireSize m.tensor)) }

/-- Where the payload is. -/
def payloadAt (i : Nat) (m : Message) (s : RankState D) : List Addr :=
  span (stagedAt m.tensor (setTag i s)) (wireSize m.tensor).toNat

def frame (i : Nat) (m : Message) (s : RankState D) : Frame :=
  ⟨m.tag, (payloadAt i m s).map (framed i m s).mem⟩

theorem frame_payload (i : Nat) {m : Message} (hsh : m.tensor.shared = true) (huser : m.tensor.User)
    (hsize : m.tensor.nbytes < UInt32.size) (s : RankState D) :
    (frame i m s).payload = m.tensor.span.map s.mem := by
  have hat : payloadAt i m s = m.tensor.span := by
    rw [payloadAt, stagedAt_shared hsh, wireSize, UInt32.toNat_ofNat_of_lt' hsize]
    rfl
  rw [frame, hat]
  refine List.map_congr_left fun x hx => ?_
  have hne : x.1 ≠ (heap 0).1 := by
    rw [(mem_span.mp hx).1]
    exact huser.ne_heap 0
  rw [framed, staged_shared hsh]
  exact store_of_ne hne

/-- The frames of a sender that is in state `s`. -/
def frames : (i : Nat) → List Message → RankState D → List Frame
  | _, [], _ => []
  | i, m :: ms, s => frame i m s :: frames (i + 1) ms (completed none (framed i m s))

/-- The call takes frames like that of `m`. -/
def Message.Takes (c m : Message) : Prop :=
  (c.tag < 0 ∨ m.tag = c.tag) ∧ (wireSize m.tensor).toNat = c.tensor.nbytes

instance (c m : Message) : Decidable (c.Takes m) := by
  unfold Message.Takes
  infer_instance

/-- A call of `recv` has delivered the payload or raised a mismatch. -/
def Frame.Received (f : Frame) (c : Message) (w : Work) : Prop :=
  (w.error = none ∧ f.payload = c.tensor.span.map w.mem) ∨
  w.error = some ("recv: tag mismatch (expected " ++ toString c.tag.toInt ++ " got " ++
    toString f.tag.toInt ++ ")") ∨
  w.error = some ("recv: size mismatch (expected " ++ toString c.tensor.nbytes ++ " got " ++
    toString f.payload.length ++ ")")

/-! ## The sender -/

section sender
variable (i : Nat) (m : Message) {F : RankProg D Unit → RankProg D Unit}

theorem send_tensor_silent (dst_rank : Nat) (hF : Context F) (hm : m.tensor.Ok) (s : RankState D) :
    Relation.ReflTransGen Silent ⟨setTag i s, F (send_tensor dst_rank m.tag m.tensor)⟩
      ⟨framed i m s, .par [[mesh_send dst_rank (heap 0) HEADER_SIZE]]
        (.par [[.send dst_rank (payloadAt i m s)]] (F (.ret ())))⟩ := by
  have hbody : Relation.ReflTransGen Silent
      (⟨setTag i s, send_tensor dst_rank m.tag m.tensor⟩ : Node Nat Addr UInt8 (Local D Host))
      ⟨framed i m s, .par [[mesh_send dst_rank (heap 0) HEADER_SIZE]]
        (.par [[.send dst_rank (payloadAt i m s)]] (.ret ()))⟩ := by
    rw [send_tensor, check_mps_eq hm, Proc.ret_bind]
    exact (stage_computes hm (setTag i s) _).trans (.single ⟨none, .act⟩)
  have hrun := silent_context hF hbody
  rwa [hF.par, hF.par] at hrun

end sender

/-! ## The receiver -/

/-- A tensor that `recv` may be called with, of any size. -/
structure Tensor.Receivable (t : Tensor) : Prop where
  mps : t.device = .MPS
  contiguous : t.is_contiguous = true
  admitted : admitted t.dtype = true

section receiver
variable (i : Nat) (c : Message) {a : Nat} {F : RankProg D Unit → RankProg D Unit}

/-- The receiver in front of the header. -/
def waiting (i : Nat) (s : RankState D) : RankState D :=
  { setTag i s with mem := fill s.mem (heap 0) HEADER_SIZE 0 }

/-- The rest of `recv` after a header of `hdr_tag` and `nbytes`. -/
def afterHeader (src_rank : Nat) (c : Message) (hdr_tag : Int32) (nbytes : UInt32) :
    RankProg D Unit := do
  .check (c.tag < 0 ∨ hdr_tag = c.tag) ("recv: tag mismatch (expected " ++ toString c.tag.toInt ++
    " got " ++ toString hdr_tag.toInt ++ ")")
  .check (nbytes.toNat = c.tensor.nbytes) ("recv: size mismatch (expected " ++
    toString c.tensor.nbytes ++ " got " ++ toString nbytes.toNat ++ ")")
  vector 1 nbytes.toNat
  .fork [[mesh_recv src_rank (heap 1) nbytes.toNat]]
  unstage_from_recv c.tensor (heap 1) nbytes.toNat

def takePayload (src_rank : Nat) (c : Message) : RankProg D Unit := do
  let s ← .get
  afterHeader src_rank c (elem uint32Codec s.mem (heap 0) 0).toInt32 (elem uint32Codec s.mem (heap 0) 1)

theorem recv_tensor_silent (src_rank : Nat) (hF : Context F) (hc : c.tensor.Receivable)
    (s : RankState D) :
    Relation.ReflTransGen Silent ⟨setTag i s, F (recv_tensor src_rank c.tag c.tensor)⟩
      ⟨waiting i s, .par [[mesh_recv src_rank (heap 0) HEADER_SIZE]] (F (takePayload src_rank c))⟩ := by
  have hmps : (check_mps_ c.tensor "recv" : RankProg D Unit) = .ret () := by
    simp [check_mps_, Tensor.is_mps, hc.mps, hc.contiguous]
  have hprog : (recv_tensor src_rank c.tag c.tensor : RankProg D Unit) =
      (vector 0 HEADER_SIZE >>= fun _ => .par [[mesh_recv src_rank (heap 0) HEADER_SIZE]]
        (takePayload src_rank c)) := by
    rw [recv_tensor, hmps]
    rfl
  rw [hprog, ← hF.par]
  exact silent_context hF (.single ⟨none, .act⟩)

/-- The receiver with the header of the frame. -/
def headed (i : Nat) (m : Message) (s u : RankState D) : RankState D :=
  (waiting i u).writes (span (heap 0) HEADER_SIZE) ((span (heap 0) HEADER_SIZE).map (framed i m s).mem)

theorem headed_mem (m : Message) (s u : RankState D) {j : Nat} (hj : j < HEADER_SIZE) :
    (headed i m s u).mem ((heap 0).1, (heap 0).2 + j) =
      (framed i m s).mem ((heap 0).1, (heap 0).2 + j) := by
  have hget := getElem?_span (heap 0) hj
  exact Store.writes_mem _ (nodup_span _ _) hget (by rw [List.getElem?_map, hget]; rfl)

theorem headed_elem (m : Message) (s u : RankState D) {k : Nat} (hk : k < 2) :
    elem uint32Codec (headed i m s u).mem (heap 0) k = header m.tag (wireSize m.tensor) k := by
  have hsame : elem uint32Codec (headed i m s u).mem (heap 0) k =
      elem uint32Codec (framed i m s).mem (heap 0) k :=
    elem_of_bytes (n := 2) (fun j hj => headed_mem i m s u hj) hk
  rw [hsame]
  exact elem_store hk

/-- The receiver reads what the sender has written. -/
theorem takePayload_headed (hF : Context F) (m : Message) (s u : RankState D) :
    Relation.ReflTransGen Silent ⟨headed i m s u, F (takePayload a c)⟩
      ⟨headed i m s u, F (afterHeader a c m.tag (wireSize m.tensor))⟩ := by
  have htag : (elem uint32Codec (headed i m s u).mem (heap 0) 0).toInt32 = m.tag := by
    rw [headed_elem i m s u Nat.zero_lt_two]
    simp [header]
  have hsize : elem uint32Codec (headed i m s u).mem (heap 0) 1 = wireSize m.tensor :=
    headed_elem i m s u Nat.one_lt_two
  rw [← hsize, ← htag]
  exact silent_context hF (.single ⟨none, .act⟩)

/-- The receiver in front of the payload. -/
def emptied (i : Nat) (m : Message) (s u : RankState D) : RankState D :=
  { headed i m s u with
    mem := fill (headed i m s u).mem (heap 1) (wireSize m.tensor).toNat 0 }

theorem afterHeader_takes (hF : Context F) {m : Message} (h : c.Takes m) (s u : RankState D) :
    Relation.ReflTransGen Silent
      ⟨headed i m s u, F (afterHeader a c m.tag (wireSize m.tensor))⟩
      ⟨emptied i m s u, .par [[mesh_recv a (heap 1) (wireSize m.tensor).toNat]]
        (F (unstage_from_recv c.tensor (heap 1) (wireSize m.tensor).toNat))⟩ := by
  rw [afterHeader, Proc.check_pos h.1, Proc.ret_bind, Proc.check_pos h.2, Proc.ret_bind, ← hF.par]
  exact silent_context hF (.single ⟨none, .act⟩)

/-- The mismatch that `recv` raises. -/
def mismatch (c : Message) (tag : Int32) (n : Nat) : String :=
  if c.tag < 0 ∨ tag = c.tag then
    "recv: size mismatch (expected " ++ toString c.tensor.nbytes ++ " got " ++ toString n ++ ")"
  else "recv: tag mismatch (expected " ++ toString c.tag.toInt ++ " got " ++ toString tag.toInt ++ ")"

theorem afterHeader_raises {m : Message} (h : ¬ c.Takes m) :
    (afterHeader a c m.tag (wireSize m.tensor) : RankProg D Unit) =
      .raise (mismatch c m.tag (wireSize m.tensor).toNat) := by
  unfold afterHeader mismatch
  by_cases htag : c.tag < 0 ∨ m.tag = c.tag
  · rw [Proc.check_pos htag, Proc.ret_bind, if_pos htag, Proc.check, if_neg fun hsize => h ⟨htag, hsize⟩]
    rfl
  · rw [Proc.check, if_neg htag, if_neg htag]
    rfl

end receiver

/-! ## One frame -/

section transfer
variable {a b i : Nat} {cap : ℕ∞} {m c : Message} {s u : RankState D}
  {others : Nat → Node Nat Addr UInt8 (Local D Host)} {F G : RankProg D Unit → RankProg D Unit}

theorem framed_tag (i : Nat) (m : Message) (s : RankState D) : (framed i m s).tag = i :=
  (staged_calm m.tensor (setTag i s)).tag

theorem headed_tag (i : Nat) (m : Message) (s u : RankState D) : (headed i m s u).tag = i :=
  Store.writes_tag _ _ _

theorem emptied_tag (i : Nat) (m : Message) (s u : RankState D) : (emptied i m s u).tag = i :=
  headed_tag i m s u

/-- Rank `a` sends a frame, and rank `b` is about to take it. -/
abbrev transfer (a b i : Nat) (m c : Message) (s u : RankState D)
    (others : Nat → Node Nat Addr UInt8 (Local D Host)) (F G : RankProg D Unit → RankProg D Unit) :
    Net Nat Addr UInt8 (Local D Host) :=
  quiet (duo a b ⟨setTag i s, F (send_tensor b m.tag m.tensor)⟩
    ⟨setTag i u, G (recv_tensor a c.tag c.tensor)⟩ others)

/-- The receiver with the payload. -/
def filled (i : Nat) (m : Message) (s u : RankState D) : RankState D :=
  (emptied i m s u).writes (span (heap 1) (wireSize m.tensor).toNat)
    ((payloadAt i m s).map (framed i m s).mem)

/-- The receiver with the payload in its tensor. -/
def taken (i : Nat) (m c : Message) (s u : RankState D) : RankState D :=
  unstaged c.tensor (heap 1) (filled i m s u)

variable (hcap : 0 < cap) (hab : a ≠ b) (hF : Context F) (hG : Context G) (hm : m.tensor.Ok)
  (hc : c.tensor.Receivable)
include hcap hab hF hG hm hc

theorem header_round :
    Reaches cap (transfer a b i m c s u others F G)
      (quiet (duo a b ⟨framed i m s, .par [[.send b (payloadAt i m s)]] (F (.ret ()))⟩
        ⟨headed i m s u, G (afterHeader a c m.tag (wireSize m.tensor))⟩ others)) :=
  (duo_left (send_tensor_silent i m b hF hm s)).trans
    ((duo_right hab (recv_tensor_silent i c a hG hc u)).trans
    ((duo_transfer hcap hab (by simp) (framed_tag i m s)).trans
    (duo_right hab (takePayload_headed i c hG m s u))))

theorem payload_round (h : c.Takes m) :
    Reaches cap (transfer a b i m c s u others F G)
      (quiet (duo a b ⟨framed i m s, F (.ret ())⟩
        ⟨filled i m s u, G (unstage_from_recv c.tensor (heap 1) (wireSize m.tensor).toNat)⟩ others)) := by
  have htag : (framed i m s).tag = (emptied i m s u).tag := by rw [framed_tag, emptied_tag]
  have hlen : (payloadAt i m s).length = (span (heap 1) (wireSize m.tensor).toNat).length := by
    simp [payloadAt]
  exact (header_round hcap hab hF hG hm hc).trans
    ((duo_right hab (afterHeader_takes i c hG h s u)).trans (duo_transfer hcap hab hlen htag))

theorem frame_round (h : c.Takes m) (hpos : 0 < c.tensor.numel) :
    Reaches cap (transfer a b i m c s u others F G)
      (quiet (duo a b ⟨framed i m s, F (.ret ())⟩ ⟨taken i m c s u, G (.ret ())⟩ others)) := by
  have hok : c.tensor.Ok := ⟨hc.mps, hc.contiguous, hc.admitted, hpos⟩
  have hunstage := unstage_computes hok (heap 1) h.2 (filled i m s u) .ret
  rw [show (unstage_from_recv c.tensor (heap 1) (wireSize m.tensor).toNat >>= .ret : RankProg D Unit) =
    unstage_from_recv c.tensor (heap 1) (wireSize m.tensor).toNat from Proc.bind_ret _] at hunstage
  exact (payload_round hcap hab hF hG hm hc h).trans (duo_right hab (silent_context hG hunstage))

end transfer

/-! ## One call of each side -/

section calls
variable (pg : ProcessGroupMCCL) (rest : List (Nat × RankOp))

/-- The rest of a task of the engine, and the calls after it. -/
def inTask (sync_cb : Bool) (q : RankProg D Unit) : RankProg D Unit :=
  guarded ((q >>= fun _ => finish sync_cb).tryCatch finishWithException) >>= fun _ => callsOf pg rest

theorem inTask_context (sync_cb : Bool) : Context (inTask (D := D) pg rest sync_cb) :=
  (Context.bind _).comp ((Context.tryCatch _).comp ((Context.tryCatch _).comp (Context.bind _)))

theorem inTask_ret (sync_cb : Bool) (s : RankState D) :
    Relation.ReflTransGen Silent ⟨s, inTask pg rest sync_cb (.ret ())⟩
      ⟨completed none (if sync_cb then drain s else s), callsOf pg rest⟩ :=
  .single ⟨none, .act⟩

theorem inTask_raise (sync_cb : Bool) (msg : String) (s : RankState D) :
    Relation.ReflTransGen Silent ⟨s, inTask pg rest sync_cb (.raise msg)⟩
      ⟨completed (some msg) s, callsOf pg rest⟩ :=
  .single ⟨none, .act⟩

theorem inTask_start (i : Nat) {o : RankOp} {body : RankProg D Unit} {sync_cb : Bool}
    (ho : o.call pg = async_submit_ body sync_cb) (s : RankState D) :
    Relation.ReflTransGen Silent ⟨s, callsOf pg ((i, o) :: rest)⟩
      ⟨setTag i s, inTask pg rest sync_cb body⟩ := by
  have hprog : callsOf pg ((i, o) :: rest) =
      (Proc.modify (setTag i) >>= fun _ => inTask pg rest sync_cb body) := by
    rw [callsOf, List.map_cons, inOrder, ho]
    rfl
  rw [hprog]
  exact .single ⟨none, .act⟩

end calls

/-- Rank `a` is about to send the frames of `ms`, rank `b` to receive them as
    `cs`; both have made `i` calls. -/
def streamNet (a b size i : Nat) (ms cs : List Message) (s u : RankState D) (st : Nat → RankState D) :
    Net Nat Addr UInt8 (Local D Host) :=
  quiet (duo a b ⟨s, callsOf ⟨a, size⟩ (sends b i ms)⟩ ⟨u, callsOf ⟨b, size⟩ (recvs a i cs)⟩
    (bystanders st))

/-- Two ranks of the group, and channels with room. -/
structure Link (cap : ℕ∞) (a b size : Nat) : Prop where
  room : 0 < cap
  ne : a ≠ b
  sender : a < size
  receiver : b < size

section round
variable {a b size i : Nat} {cap : ℕ∞} {m c : Message} {ms cs : List Message} {s u : RankState D}
  {st : Nat → RankState D}

theorem send_call (m : Message) (hab : a ≠ b) (hb : b < size) :
    (RankOp.send [m.tensor] b m.tag).call ⟨a, size⟩ =
      async_submit_ (send_tensor b m.tag m.tensor : RankProg D Unit) false := by
  rw [RankOp.call, ProcessGroupMCCL.send, if_neg (by simp; omega)]
  congr 1
  exact Proc.bind_ret _

theorem recv_call (c : Message) (hab : a ≠ b) (ha : a < size) :
    (RankOp.recv [c.tensor] a c.tag).call ⟨b, size⟩ =
      async_submit_ (recv_tensor a c.tag c.tensor : RankProg D Unit) true := by
  rw [RankOp.call, ProcessGroupMCCL.recv, if_neg (by simp; omega)]
  congr 1
  exact Proc.bind_ret _

theorem round_start (hl : Link cap a b size) :
    Reaches cap (streamNet a b size i (m :: ms) (c :: cs) s u st)
      (transfer a b i m c s u (bystanders st) (inTask ⟨a, size⟩ (sends b (i + 1) ms) false)
        (inTask ⟨b, size⟩ (recvs a (i + 1) cs) true)) :=
  (duo_left (inTask_start _ _ i (send_call m hl.ne hl.receiver) s)).trans
    (duo_right hl.ne (inTask_start _ _ i (recv_call c hl.ne hl.sender) u))

theorem round_takes (hl : Link cap a b size) (hm : m.tensor.Ok) (hc : c.tensor.Receivable)
    (h : c.Takes m) (hpos : 0 < c.tensor.numel) :
    Reaches cap (streamNet a b size i (m :: ms) (c :: cs) s u st)
      (streamNet a b size (i + 1) ms cs (completed none (framed i m s))
        (completed none (drain (taken i m c s u))) st) :=
  (round_start hl).trans
    ((frame_round hl.room hl.ne (inTask_context ..) (inTask_context ..) hm hc h hpos).trans
    ((duo_left (inTask_ret _ _ false _)).trans (duo_right hl.ne (inTask_ret _ _ true _))))

variable (ms cs st) in
/-- An empty tensor is not accepted, not even for an empty payload. -/
theorem round_empty (hl : Link cap a b size) (hm : m.tensor.Ok) (hc : c.tensor.Receivable)
    (h : c.Takes m) (hzero : c.tensor.numel = 0) :
    Reaches cap (streamNet a b size i (m :: ms) (c :: cs) s u st)
      (streamNet a b size (i + 1) ms cs (completed none (framed i m s))
        (completed (some "MCCL does not accept empty tensors") (filled i m s u)) st) := by
  have hraise : (unstage_from_recv c.tensor (heap 1) (wireSize m.tensor).toNat : RankProg D Unit) =
      .raise "MCCL does not accept empty tensors" := by
    simp [unstage_from_recv, check_single_tensor, Tensor.is_mps, hc.mps, hc.contiguous, hc.admitted,
      hzero, Proc.check]
  refine (round_start hl).trans
    ((payload_round hl.room hl.ne (inTask_context ..) (inTask_context ..) hm hc h).trans
    ((duo_left (inTask_ret _ _ false _)).trans (duo_right hl.ne ?_)))
  rw [hraise]
  exact inTask_raise _ _ _ _ _

variable (ms cs st) in
theorem mismatch_round (hl : Link cap a b size) (hm : m.tensor.Ok) (hc : c.tensor.Receivable)
    (h : ¬ c.Takes m) : Reaches cap (streamNet a b size i (m :: ms) (c :: cs) s u st)
      (quiet (duo a b
        ⟨framed i m s, .par [[.send b (payloadAt i m s)]]
          (inTask ⟨a, size⟩ (sends b (i + 1) ms) false (.ret ()))⟩
        ⟨completed (some (mismatch c m.tag (wireSize m.tensor).toNat)) (headed i m s u),
          callsOf ⟨b, size⟩ (recvs a (i + 1) cs)⟩ (bystanders st))) := by
  refine (round_start hl).trans
    ((header_round hl.room hl.ne (inTask_context ..) (inTask_context ..) hm hc).trans (duo_right hl.ne ?_))
  rw [afterHeader_raises c h]
  exact inTask_raise _ _ _ _ _

/-- If there is no payload, the stream is as it should be. -/
theorem round_mismatch (hl : Link cap a b size) (hm : m.tensor.Ok) (hc : c.tensor.Receivable)
    (h : ¬ c.Takes m) (hzero : (wireSize m.tensor).toNat = 0) :
    Reaches cap (streamNet a b size i (m :: ms) (c :: cs) s u st)
      (streamNet a b size (i + 1) ms cs (completed none (framed i m s))
        (completed (some (mismatch c m.tag (wireSize m.tensor).toNat)) (headed i m s u)) st) := by
  refine (mismatch_round _ _ _ hl hm hc h).trans (duo_left ?_)
  have hnil : payloadAt i m s = [] := by rw [payloadAt, hzero, span_zero]
  rw [hnil]
  refine .head ⟨some 0, .thread rfl (.sendDone ..)⟩ (.head ⟨none, .join (by simp)⟩ ?_)
  exact inTask_ret _ _ false _

/-! ## What has been received -/

theorem unstaged_span (t : Tensor) (j : Nat) {s : RankState D} (h : s.aux.metal.committed = []) :
    t.span.map (unstaged t (heap j) s).mem = (span (heap j) t.nbytes).map s.mem := by
  cases hsh : t.shared with
  | true =>
    rw [unstaged_mem hsh]
    exact map_span_copy _ _ _ _
  | false =>
    -- The bytes are copied to the pool, and from there by a blit.
    have hne : heap j ≠ s.aux.host.pool.ptr := by simp [heap, StagingPool.ptr]
    have hmem : (unstaged t (heap j) s).mem =
        copy (copy s.mem (s.aux.host.pool.ensure t.nbytes).ptr (heap j) t.nbytes) t.addr
          (s.aux.host.pool.ensure t.nbytes).ptr t.nbytes := by
      simp only [unstaged, hsh, Bool.false_eq_true, if_false, unstageFrom, unstagePool, if_neg hne, blitted]
      rw [drain_mem (by simpa [setPool] using h)]
    rw [hmem]
    exact (map_span_copy _ _ _ _).trans (map_span_copy _ _ _ _)

theorem filled_aux (i : Nat) (m : Message) (s u : RankState D) : (filled i m s u).aux = u.aux :=
  (Store.writes_aux _ _ _).trans (Store.writes_aux _ _ _)

@[simp] theorem frame_length (i : Nat) (m : Message) (s : RankState D) :
    (frame i m s).payload.length = (wireSize m.tensor).toNat := by
  simp [frame, payloadAt]

theorem delivered (h : c.Takes m) (hidle : u.aux.metal.committed = []) :
    (frame i m s).payload =
      c.tensor.span.map (drain (taken i m c s u)).mem := by
  have hfilled : (filled i m s u).aux.metal.committed = [] := by rw [filled_aux, hidle]
  rw [taken, drain_mem ((unstaged_calm _ _ _).committed hfilled), unstaged_span _ _ hfilled, ← h.2]
  exact (Store.map_writes _ (nodup_span _ _) (by simp)).symm

theorem mismatched (w : Work) (hw : w.error = some (mismatch c m.tag (wireSize m.tensor).toNat)) :
    (frame i m s).Received c w := by
  right
  rw [hw, frame_length, mismatch]
  split
  · exact .inr rfl
  · exact .inl rfl

variable (ms cs st) in
/-- One call of `recv` has been served, and the next one starts at the next frame. -/
theorem round_served (hl : Link cap a b size) (hm : m.tensor.Ok) (hc : c.tensor.Receivable)
    (hpos : c.Takes m → 0 < c.tensor.numel)
    (hclean : c.Takes m ∨ (wireSize m.tensor).toNat = 0) (hidle : u.aux.metal.committed = []) :
    ∃ u' w, Reaches cap (streamNet a b size i (m :: ms) (c :: cs) s u st)
        (streamNet a b size (i + 1) ms cs (completed none (framed i m s)) u' st) ∧
      u'.aux.metal.committed = [] ∧ u'.aux.host.works = u.aux.host.works ++ [w] ∧
      (frame i m s).Received c w := by
  by_cases h : c.Takes m
  · refine ⟨_, ⟨_, _⟩, round_takes hl hm hc h (hpos h), rfl, ?_, .inl ⟨rfl, delivered h hidle⟩⟩
    have hworks := (unstaged_calm c.tensor (heap 1) (filled i m s u)).works
    rw [filled_aux] at hworks
    exact congrArg (· ++ _) hworks
  · have haux : (headed i m s u).aux = u.aux := Store.writes_aux _ _ _
    refine ⟨_, ⟨_, (headed i m s u).mem⟩, round_mismatch hl hm hc h (hclean.resolve_left h),
      ?_, ?_, mismatched _ rfl⟩
    · simpa [completed, haux] using hidle
    · simp [completed, haux]

end round

/-! ## The programs -/

section programs

variable {a b size i : Nat} {ms cs : List Message}

theorem mem_sends {dst_rank i : Nat} {ms : List Message} {x : Nat × RankOp} (h : x ∈ sends dst_rank i ms) :
    ∃ m ∈ ms, x.2 = .send [m.tensor] dst_rank m.tag := by
  induction ms generalizing i with
  | nil => simp [sends] at h
  | cons m ms ih =>
    rcases List.mem_cons.mp h with rfl | h
    · exact ⟨m, by simp, rfl⟩
    · obtain ⟨m', hm', hx⟩ := ih h
      exact ⟨m', by simp [hm'], hx⟩

theorem mem_recvs {src_rank i : Nat} {cs : List Message} {x : Nat × RankOp} (h : x ∈ recvs src_rank i cs) :
    ∃ c ∈ cs, x.2 = .recv [c.tensor] src_rank c.tag := by
  induction cs generalizing i with
  | nil => simp [recvs] at h
  | cons c cs ih =>
    rcases List.mem_cons.mp h with rfl | h
    · exact ⟨c, by simp, rfl⟩
    · obtain ⟨c', hc', hx⟩ := ih h
      exact ⟨c', by simp [hc'], hx⟩

theorem send_tensor_deaf (dst_rank : Nat) (tag : Int32) (t : Tensor) :
    (send_tensor dst_rank tag t : RankProg D Unit).Deaf := by
  have hone : ∀ src, (Proc.fork [[.send dst_rank src]] : RankProg D Unit).Deaf :=
    fun src => ⟨by simp [Op.Sends], trivial⟩
  exact .bind (.of_straight (check_mps_straight _ _)) fun _ =>
    .bind (.of_straight (stage_straight _)) fun _ => .bind (.of_straight (.modify _)) fun _ =>
    .bind (hone _) fun _ => hone _

theorem sends_deaf (hab : a ≠ b) (hb : b < size) :
    (callsOf ⟨a, size⟩ (sends b i ms) : RankProg D Unit).Deaf := by
  refine inOrder_of trivial (fun hp hq => .bind hp fun _ => hq) (fun hp => .tryCatch hp fun _ => trivial)
    (fun _ _ => trivial) _ fun x hx => ?_
  obtain ⟨m, -, hm⟩ := mem_sends hx
  rw [hm, send_call m hab hb]
  exact .tryCatch (.bind (send_tensor_deaf _ _ _) fun _ _ => trivial) fun _ _ => trivial

theorem async_submit_raceFree {body : RankProg D Unit} (h : body.RaceFree) (sync_cb : Bool) :
    (async_submit_ body sync_cb).prog.RaceFree :=
  .tryCatch (.bind h fun _ => .modify _) fun _ => .modify _

theorem send_tensor_raceFree (dst_rank : Nat) (tag : Int32) (t : Tensor) :
    (send_tensor dst_rank tag t : RankProg D Unit).RaceFree := by
  have hone : ∀ src, (Proc.fork [[.send dst_rank src]] : RankProg D Unit).RaceFree :=
    fun src => ⟨List.pairwise_singleton _ _, trivial⟩
  exact .bind (check_mps_straight _ _).raceFree fun _ => .bind (stage_straight _).raceFree fun _ =>
    .bind (.modify _) fun _ => .bind (hone _) fun _ => hone _

theorem recv_tensor_raceFree (src_rank : Nat) (tag : Int32) (t : Tensor) :
    (recv_tensor src_rank tag t : RankProg D Unit).RaceFree := by
  have hone : ∀ dst, (Proc.fork [[.recv src_rank dst]] : RankProg D Unit).RaceFree :=
    fun dst => ⟨List.pairwise_singleton _ _, trivial⟩
  exact .bind (check_mps_straight _ _).raceFree fun _ => .bind (.modify _) fun _ =>
    .bind (hone _) fun _ => .bind .get fun _ => .bind (.check _ _) fun _ => .bind (.check _ _) fun _ =>
    .bind (.modify _) fun _ => .bind (hone _) fun _ => (unstage_straight _ _ _).raceFree

theorem sends_raceFree (hab : a ≠ b) (hb : b < size) :
    (callsOf ⟨a, size⟩ (sends b i ms) : RankProg D Unit).RaceFree := by
  apply callsOf_raceFree
  intro x hx
  obtain ⟨m, -, hm⟩ := mem_sends hx
  rw [hm, send_call m hab hb]
  exact async_submit_raceFree (send_tensor_raceFree _ _ _) _

theorem recvs_raceFree (hab : a ≠ b) (ha : a < size) :
    (callsOf ⟨b, size⟩ (recvs a i cs) : RankProg D Unit).RaceFree := by
  apply callsOf_raceFree
  intro x hx
  obtain ⟨c, -, hc⟩ := mem_recvs hx
  rw [hc, recv_call c hab ha]
  exact async_submit_raceFree (recv_tensor_raceFree _ _ _) _

/-- No work is forgotten. -/
def Grows (s s' : RankState D) : Prop := s.aux.host.works <+: s'.aux.host.works

theorem grows_blind : Blind (Grows (D := D)) :=
  ⟨fun _ => List.prefix_rfl, List.IsPrefix.trans, fun _ _ => List.prefix_rfl⟩

theorem grows_modify {f : RankState D → RankState D}
    (hf : ∀ s, (f s).aux.host.works = s.aux.host.works) : (Proc.modify f : RankProg D Unit).Keeps Grows :=
  .modify fun s => by rw [Grows, hf]

theorem unstage_grows (t : Tensor) (src : Addr) (n : Nat) :
    (unstage_from_recv t src n : RankProg D Unit).Keeps Grows := by
  have hsingle : (check_single_tensor t : RankProg D Unit).Keeps Grows :=
    .bind (.check _ _) fun _ => .bind (.check _ _) fun _ => .bind (.check _ _) fun _ => .check _ _
  refine .bind hsingle fun _ => .bind (.check _ _) fun _ => .bind (.bind hsingle fun _ => trivial) fun v => ?_
  split
  · exact grows_modify fun _ => rfl
  · refine .bind (.bind (.get grows_blind) fun s => ?_) fun _ =>
      .bind (grows_modify fun _ => rfl) fun _ => grows_modify fun _ => rfl
    split
    · trivial
    · exact .bind (.bind (grows_modify fun _ => rfl) fun _ => .bind (.get grows_blind) fun _ => trivial) fun _ =>
        .bind (grows_modify fun _ => rfl) fun _ => trivial

theorem recvs_grows (hab : a ≠ b) (ha : a < size) :
    (callsOf ⟨b, size⟩ (recvs a i cs) : RankProg D Unit).Keeps Grows := by
  refine inOrder_of trivial (fun hp hq => .bind hp fun _ => hq) (fun hp => .tryCatch hp fun _ => trivial)
    (fun _ => grows_modify fun _ => rfl) _ fun x hx => ?_
  obtain ⟨c, -, hc⟩ := mem_recvs hx
  rw [hc, recv_call c hab ha]
  refine .tryCatch (.bind ?_ fun _ => ?_) fun _ => ?_
  · exact .bind (.bind (.check _ _) fun _ => .check _ _) fun _ => .bind (grows_modify fun _ => rfl) fun _ =>
      .bind trivial fun _ => .bind (.get grows_blind) fun _ => .bind (.check _ _) fun _ =>
      .bind (.check _ _) fun _ => .bind (grows_modify fun _ => rfl) fun _ => .bind trivial fun _ =>
      unstage_grows _ _ _
  · exact .modify fun s => List.prefix_append _ _
  · exact .modify fun s => List.prefix_append _ _

end programs

/-! ## Streams -/

/-- Every finished call of `recv` has got its own frame, or has raised a mismatch. -/
def Serves (fs : List Frame) (cs : List Message) (ws : List Work) : Prop :=
  ∀ (j : Nat) (w : Work), ws[j]? = some w → ∃ f c, fs[j]? = some f ∧ cs[j]? = some c ∧ f.Received c w

namespace Serves

variable {f : Frame} {fs : List Frame} {c : Message} {cs : List Message} {w : Work} {ws ws' : List Work}

theorem nil : Serves fs cs [] := by simp [Serves]

theorem cons_iff : Serves (f :: fs) (c :: cs) (w :: ws) ↔ f.Received c w ∧ Serves fs cs ws := by
  constructor
  · intro h
    refine ⟨?_, fun j v hj => h (j + 1) v (by simpa using hj)⟩
    obtain ⟨f', c', hf, hc, hw⟩ := h 0 w rfl
    cases hf
    cases hc
    exact hw
  · rintro ⟨hw, h⟩ j v hj
    cases j with
    | zero =>
      cases hj
      exact ⟨f, c, rfl, rfl, hw⟩
    | succ j => exact h j v (by simpa using hj)

theorem of_prefix (h : Serves fs cs ws') (hws : ws <+: ws') : Serves fs cs ws := by
  obtain ⟨rest, rfl⟩ := hws
  intro j w hj
  refine h j w ?_
  rwa [List.getElem?_append_left (List.getElem?_eq_some_iff.mp hj).1]

end Serves

/-- No call of `recv` leaves anything of its frame to the next one, and none
    takes a frame for a tensor that does not accept it. -/
def Undisturbed (ms cs : List Message) : Prop :=
  ∀ (i : Nat) (m c : Message), ms[i]? = some m → cs[i]? = some c →
    (c.Takes m → 0 < c.tensor.numel) ∧
    (i + 1 < cs.length → c.Takes m ∨ (wireSize m.tensor).toNat = 0)

theorem undisturbed_cons {m c : Message} {ms cs : List Message} :
    Undisturbed (m :: ms) (c :: cs) ↔ ((c.Takes m → 0 < c.tensor.numel) ∧
      (cs ≠ [] → c.Takes m ∨ (wireSize m.tensor).toNat = 0)) ∧ Undisturbed ms cs := by
  constructor
  · intro h
    have hhead := h 0 m c rfl rfl
    refine ⟨⟨hhead.1, fun hcs => hhead.2 ?_⟩, fun i m' c' hm hc => ?_⟩
    · simpa using List.length_pos_iff.mpr hcs
    · simpa using h (i + 1) m' c' (by simpa using hm) (by simpa using hc)
  · rintro ⟨hhead, h⟩ i m' c' hm hc
    cases i with
    | zero =>
      cases hm
      cases hc
      exact ⟨hhead.1, fun hlt => hhead.2 (List.length_pos_iff.mp (by simpa using hlt))⟩
    | succ i => simpa using h i m' c' (by simpa using hm) (by simpa using hc)

section streams
variable {a b size i : Nat} {cap : ℕ∞} {ms cs : List Message} {s u : RankState D}
  {st : Nat → RankState D}

theorem streamNet_raceFree (hl : Link cap a b size) :
    (streamNet a b size i ms cs s u st).RaceFree :=
  duo_raceFree (sends_raceFree hl.ne hl.receiver) (recvs_raceFree hl.ne hl.sender)

variable (cap st) in
/-- The receiver is done; the sender goes on as long as there is room. -/
theorem rest_of_sends (hab : a ≠ b) {p q : Node Nat Addr UInt8 (Local D Host)} (hp : p.prog.Deaf)
    (hq : q.prog.Finished) :
    ∃ z, Reaches cap (quiet (duo a b p q (bystanders st))) z ∧ Rewriting.Terminal (Step cap) z ∧ z.matched ∧
      z.node b = q := by
  have hacc : Acc (fun z y => Step cap y z) (quiet (duo a b p q (bystanders st))) := duo_acc hab
  obtain ⟨z, hz, hterm⟩ := Rewriting.exists_terminal hacc
  have honly : OnlySends a (quiet (duo a b p q (bystanders st))) := by
    refine ⟨by simpa using hp, fun r hr => ?_, trivial⟩
    rw [quiet_node, duo, if_neg hr]
    split
    · exact hq
    · trivial
  obtain ⟨hsends, heq⟩ := honly.reaches hz
  exact ⟨z, hz, hterm, hsends.matched, (heq b hab.symm).trans (duo_b hab)⟩

theorem inTask_deaf {pg : ProcessGroupMCCL} {rest : List (Nat × RankOp)}
    (h : (callsOf pg rest : RankProg D Unit).Deaf) (sync_cb : Bool) :
    (inTask pg rest sync_cb (.ret ()) : RankProg D Unit).Deaf :=
  .bind (.tryCatch (.tryCatch (.of_straight (.modify _)) fun _ _ => trivial) fun _ => trivial) fun _ => h

variable (st) in
/-- A stream without disturbances is received to its end. -/
theorem undisturbed_run (hl : Link cap a b size) (hms : ∀ m ∈ ms, m.tensor.Ok)
    (hcs : ∀ c ∈ cs, c.tensor.Receivable)
    (hidle : u.aux.metal.committed = []) (h : Undisturbed ms cs) :
    ∃ z ws, Reaches cap (streamNet a b size i ms cs s u st) z ∧ Rewriting.Terminal (Step cap) z ∧
      z.matched ∧ (z.node b).store.aux.host.works = u.aux.host.works ++ ws ∧
      Serves (frames i ms s) cs ws := by
  induction ms generalizing i cs s u with
  | nil =>
    cases cs with
    | nil =>
      obtain ⟨z, hz, hterm, hmatched, hnode⟩ :=
        rest_of_sends cap st hl.ne (p := ⟨s, .ret ()⟩) (q := ⟨u, .ret ()⟩) trivial trivial
      exact ⟨z, [], hz, hterm, hmatched, by rw [hnode, List.append_nil], .nil⟩
    | cons c cs =>
      -- The receiver waits for a frame that is not sent.
      have hwait := (inTask_start ⟨b, size⟩ (recvs a (i + 1) cs) i (recv_call c hl.ne hl.sender) u).trans
        (recv_tensor_silent i c a (inTask_context ..) (hcs c (by simp)) u)
      refine ⟨_, [], duo_right hl.ne hwait, duo_waiting hl.ne trivial (by simp [span, HEADER_SIZE]), trivial, ?_, .nil⟩
      rw [List.append_nil, net_node, duo_b hl.ne]
      rfl
  | cons m ms ih =>
    cases cs with
    | nil =>
      obtain ⟨z, hz, hterm, hmatched, hnode⟩ :=
        rest_of_sends cap st hl.ne (p := ⟨s, callsOf ⟨a, size⟩ (sends b i (m :: ms))⟩)
          (q := ⟨u, .ret ()⟩) (sends_deaf hl.ne hl.receiver) trivial
      exact ⟨z, [], hz, hterm, hmatched, by rw [hnode, List.append_nil], .nil⟩
    | cons c cs =>
      obtain ⟨⟨hpos, hclean⟩, hrest⟩ := undisturbed_cons.mp h
      have hm := hms m (by simp)
      have hc := hcs c (by simp)
      by_cases hgood : c.Takes m ∨ (wireSize m.tensor).toNat = 0
      · obtain ⟨u', w, hround, hidle', hworks, hreceived⟩ :=
          round_served ms cs st (i := i) (s := s) hl hm hc hpos hgood hidle
        obtain ⟨z, ws, hz, hterm, hmatched, hworks', hserves⟩ :=
          ih (fun m' hm' => hms m' (by simp [hm'])) (fun c' hc' => hcs c' (by simp [hc'])) hidle' hrest
        refine ⟨z, w :: ws, hround.trans hz, hterm, hmatched, ?_, Serves.cons_iff.mpr ⟨hreceived, hserves⟩⟩
        rw [hworks', hworks, List.append_assoc, List.singleton_append]
      · -- The last call has raised a mismatch, and nobody reads the payload.
        obtain rfl : cs = [] := by
          by_contra hne
          exact hgood (hclean hne)
        have hnot : ¬ c.Takes m := fun htakes => hgood (.inl htakes)
        have hround := mismatch_round ms [] st (i := i) (s := s) (u := u) hl hm hc hnot
        have hdeaf : (Proc.par [[.send b (payloadAt i m s)]]
            (inTask ⟨a, size⟩ (sends b (i + 1) ms) false (.ret ())) : RankProg D Unit).Deaf :=
          ⟨by simp [Op.Sends], inTask_deaf (sends_deaf hl.ne hl.receiver) _⟩
        obtain ⟨z, hz, hterm, hmatched, hnode⟩ := rest_of_sends cap st hl.ne
          (p := ⟨framed i m s, _⟩) (q := ⟨completed (some _) (headed i m s u), .ret ()⟩) hdeaf trivial
        refine ⟨z, [⟨_, (headed i m s u).mem⟩], hround.trans hz, hterm, hmatched, ?_,
          Serves.cons_iff.mpr ⟨mismatched _ rfl, .nil⟩⟩
        have haux : (headed i m s u).aux = u.aux := Store.writes_aux _ _ _
        rw [hnode]
        simp [completed, haux]

variable (ms cs st) in
/-- A mismatch in front of another call: it takes the payload for a header. -/
theorem poisoned_run {m c c' : Message} (hl : Link cap a b size) (hm : m.tensor.Ok)
    (hc : c.tensor.Receivable) (hc' : c'.tensor.Receivable) (h : ¬ c.Takes m)
    (hpos : (wireSize m.tensor).toNat ≠ 0) :
    ∃ y, Reaches cap (streamNet a b size i (m :: ms) (c :: c' :: cs) s u st) y ∧ ¬ y.matched := by
  have hround := (mismatch_round ms (c' :: cs) st (i := i) (s := s) (u := u) hl hm hc h).trans
    (duo_right hl.ne ((inTask_start _ _ (i + 1) (recv_call c' hl.ne hl.sender) _).trans
    (recv_tensor_silent (i + 1) c' a (inTask_context ..) hc' _)))
  obtain ⟨x, src, hsrc⟩ : ∃ x src, payloadAt i m s = x :: src :=
    List.exists_cons_of_ne_nil (List.ne_nil_of_length_pos (by simpa [payloadAt] using Nat.pos_of_ne_zero hpos))
  rw [hsrc] at hround
  obtain ⟨y, hy, hbad⟩ := duo_unmatched (s := framed i m s)
    (u := waiting (i + 1) (completed (some (mismatch c m.tag (wireSize m.tensor).toNat)) (headed i m s u)))
    (x := x) hl.room hl.ne (by rw [framed_tag]; exact (Nat.succ_ne_self i).symm)
  exact ⟨y, hround.trans hy, hbad⟩

theorem streamNet_grows (hl : Link cap a b size) {y : Net Nat Addr UInt8 (Local D Host)}
    (hy : Reaches cap (streamNet a b size i ms cs s u st) y) :
    u.aux.host.works <+: (y.node b).store.aux.host.works ∧ (y.node b).prog.Keeps Grows := by
  have hnode : (streamNet a b size i ms cs s u st).node b = ⟨u, callsOf ⟨b, size⟩ (recvs a i cs)⟩ := duo_b hl.ne
  have hgrows := keeps_reaches grows_blind hy (r := b) (by rw [hnode]; exact recvs_grows hl.ne hl.sender)
  rwa [hnode] at hgrows

theorem empty_not_received (f : Frame) (c : Message) (mem : Addr → UInt8) :
    ¬ f.Received c ⟨some "MCCL does not accept empty tensors", mem⟩ := by
  rintro (⟨h, -⟩ | h | h)
  · cases h
  · have := congrArg (fun o : Option String => o.map fun s => s.toList.head?) h
    simp at this
  · have := congrArg (fun o : Option String => o.map fun s => s.toList.head?) h
    simp at this

variable (st) in
/-- A disturbed stream has a run in which a call gets what is not its own. -/
theorem disturbed_run (hl : Link cap a b size) (hms : ∀ m ∈ ms, m.tensor.Ok)
    (hcs : ∀ c ∈ cs, c.tensor.Receivable)
    (hidle : u.aux.metal.committed = []) (h : ¬ Undisturbed ms cs) :
    ∃ y ws, Reaches cap (streamNet a b size i ms cs s u st) y ∧
      (y.node b).store.aux.host.works = u.aux.host.works ++ ws ∧
      ¬ (y.matched ∧ Serves (frames i ms s) cs ws) := by
  induction ms generalizing i cs s u with
  | nil => exact absurd (fun _ _ _ hm => by simp at hm) h
  | cons m ms ih =>
    cases cs with
    | nil => exact absurd (fun _ _ _ _ hc => by simp at hc) h
    | cons c cs =>
      have hm := hms m (by simp)
      have hc := hcs c (by simp)
      by_cases hpos : c.Takes m → 0 < c.tensor.numel
      · by_cases hgood : c.Takes m ∨ (wireSize m.tensor).toNat = 0
        · obtain ⟨u', w, hround, hidle', hworks, hreceived⟩ :=
          round_served ms cs st (i := i) (s := s) hl hm hc hpos hgood hidle
          have hrest : ¬ Undisturbed ms cs :=
            fun hrest => h (undisturbed_cons.mpr ⟨⟨hpos, fun _ => hgood⟩, hrest⟩)
          obtain ⟨y, ws, hy, hworks', hbad⟩ :=
            ih (fun m' hm' => hms m' (by simp [hm'])) (fun c' hc' => hcs c' (by simp [hc'])) hidle' hrest
          refine ⟨y, w :: ws, hround.trans hy, ?_, fun hok => hbad ⟨hok.1, (Serves.cons_iff.mp hok.2).2⟩⟩
          rw [hworks', hworks, List.append_assoc, List.singleton_append]
        · -- The next call takes the payload for its header.
          cases cs with
          | nil =>
            refine absurd (undisturbed_cons.mpr ⟨⟨hpos, fun hne => absurd rfl hne⟩, ?_⟩) h
            exact fun _ _ _ _ hc => by simp at hc
          | cons c' cs =>
            obtain ⟨y, hy, hbad⟩ := poisoned_run ms cs st (i := i) (s := s) (u := u) hl hm hc (hcs c' (by simp)) (fun htakes => hgood (.inl htakes)) fun hzero => hgood (.inr hzero)
            obtain ⟨ws, hws⟩ := (streamNet_grows hl hy).1
            exact ⟨y, ws, hy, hws.symm, fun hok => hbad hok.1⟩
      · -- The tensor is empty.
        push Not at hpos
        obtain ⟨htakes, hzero⟩ := hpos
        have hround := round_empty ms cs st (i := i) (s := s) (u := u) hl hm hc
          htakes (Nat.le_zero.mp hzero)
        refine ⟨_, [⟨_, (filled i m s u).mem⟩], hround, ?_,
          fun hok => empty_not_received _ c _ (Serves.cons_iff.mp hok.2).1⟩
        rw [streamNet, quiet_node, duo_b hl.ne, completed, filled_aux]

/-- **Streams of frames**: in every run every call of `recv` reads nothing but
    its own frame, and delivers it or raises a mismatch, if and only if the
    stream is undisturbed. -/
theorem stream_served_iff (hcap : 0 < cap) (hab : a ≠ b) (ha : a < size) (hb : b < size)
    (hms : ∀ m ∈ ms, m.tensor.Ok) (hcs : ∀ c ∈ cs, c.tensor.Receivable)
    (hidle : u.aux.metal.committed = []) :
    (∀ y, Reaches cap (streamNet a b size 0 ms cs s u st) y → y.matched ∧
      Serves (frames 0 ms s) cs ((y.node b).store.aux.host.works.drop u.aux.host.works.length)) ↔
    Undisturbed ms cs := by
  have hl : Link cap a b size := ⟨hcap, hab, ha, hb⟩
  constructor
  · intro h
    by_contra hnot
    obtain ⟨y, ws, hy, hworks, hbad⟩ := disturbed_run st (i := 0) (s := s) hl hms hcs hidle hnot
    have hok := h y hy
    rw [hworks, List.drop_left] at hok
    exact hbad hok
  · intro h y hy
    obtain ⟨z, ws, hz, hterm, hmatched, hworks, hserves⟩ := undisturbed_run st (i := 0) (s := s) hl hms
      hcs hidle h
    -- The one run decides about all others: `y` can still go on to `z`.
    have hyz := (step_commutes cap).reaches_terminal (streamNet_raceFree hl) hz hterm hy
    refine ⟨matched_of_reaches hyz hmatched, hserves.of_prefix ?_⟩
    obtain ⟨⟨ws', hws'⟩, hkeeps⟩ := streamNet_grows hl hy
    have hgrows := (keeps_reaches grows_blind hyz hkeeps).1
    rw [Grows, hworks, ← hws'] at hgrows
    rw [← hws', List.drop_left]
    exact (List.prefix_append_right_inj _).mp hgrows

end streams

/-- Four bytes with a tag. -/
def smallMessage (tag : Int32) : Message := ⟨tag, userTensor .Float 0 1⟩

theorem smallMessage_ok (tag : Int32) : (smallMessage tag).tensor.Ok :=
  ⟨rfl, rfl, rfl, by simp [smallMessage, Tensor.numel, userTensor]⟩

theorem smallMessage_receivable (tag : Int32) : (smallMessage tag).tensor.Receivable :=
  ⟨rfl, rfl, rfl⟩

/-- One frame and the call that takes it. -/
theorem stream_served_one : Undisturbed [smallMessage 7] [smallMessage 7] ∧
    ∀ y, Reaches 1 (streamNet 0 1 2 0 [smallMessage 7] [smallMessage 7] (freshState 0) (freshState 1) freshState) y →
      y.matched ∧ Serves (frames 0 [smallMessage 7] (freshState 0)) [smallMessage 7]
        ((y.node 1).store.aux.host.works.drop 0) := by
  have hclean : Undisturbed [smallMessage 7] [smallMessage 7] :=
    undisturbed_cons.mpr ⟨⟨fun _ => (smallMessage_ok 7).numel_pos, fun h => absurd rfl h⟩,
      fun _ _ _ hm => by simp at hm⟩
  refine ⟨hclean, (stream_served_iff zero_lt_one zero_ne_one Nat.two_pos Nat.one_lt_two ?_ ?_ rfl).mpr hclean⟩
  · simpa using smallMessage_ok 7
  · simpa using smallMessage_receivable 7

/-- The first call expects another tag: the second takes the payload of the
    first frame for a header. -/
theorem stream_poisoned : ∃ y, Reaches 1 (streamNet 0 1 2 0 [smallMessage 7, smallMessage 8]
    [smallMessage 8, smallMessage 8] (freshState 0) (freshState 1) freshState) y ∧ ¬ y.matched :=
  poisoned_run _ _ _ ⟨zero_lt_one, zero_ne_one, Nat.two_pos, Nat.one_lt_two⟩ (smallMessage_ok 7)
    (smallMessage_receivable 8) (smallMessage_receivable 8) (by decide) (by decide)

end Mccl
