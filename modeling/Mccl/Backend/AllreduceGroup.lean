import Mccl.Backend.AllreduceAlgos
import Mccl.Framework.Reduction

/-! # One Allreduce of All Ranks

    What the three algorithms have in common: the arguments of all ranks
    (`AllreduceGroup`), the stores they start from (`Ready`), what the
    tensors hold (`Holds`), and the specified result (`result`). The last part
    has the facts about chunks. -/

namespace Mccl

open ForkJoin Arrays Reduction

/-- The arguments of all ranks of one allreduce: they agree on the type and
    the number of elements, and all storage is shared. -/
structure AllreduceGroup where
  world : Nat
  op : RedOpType
  dtype : ScalarType
  numel : Nat
  args : Nat → AllreduceArgs
  dtype_eq : ∀ r < world, (args r).dtype = dtype
  numel_eq : ∀ r < world, (args r).numel = numel
  t_shared : ∀ r < world, (args r).t_view.cpu_accessible = true
  recv_shared : ∀ r < world, (args r).recv_view.cpu_accessible = true

namespace AllreduceGroup

variable {β : Type} {D : Device β} {ω : Type} {f : Format} {k : BinaryOp} (G : AllreduceGroup)

def ranks : List Nat := List.range G.world

variable {r i c : Nat} {m m' : Addr → β} {a : Addr}

@[simp] theorem mem_ranks : r ∈ G.ranks ↔ r < G.world := List.mem_range

/-- Where the tensor of rank `r` is. -/
def tensorAt (r : Nat) : Addr := (G.args r).t_view.addr

/-- Where the scratch of rank `r` is. -/
def scratchAt (r : Nat) : Addr := (G.args r).recv_view.addr

theorem scratch_ne (r : Nat) : (G.scratchAt r).1 ≠ (G.tensorAt r).1 := (G.args r).fresh

/-- Chunk `i` of the tensor. -/
def chunk (i : Nat) : ChunkInfo := chunkize G.numel G.dtype.elementSize G.world i

theorem esize_eq (hr : r < G.world) : (G.args r).esize = G.dtype.elementSize := by
  rw [AllreduceArgs.esize, G.dtype_eq r hr]

theorem chunkize_eq (hr : r < G.world) (i : Nat) :
    chunkize (G.args r).numel (G.args r).esize G.world i = G.chunk i := by
  rw [G.numel_eq r hr, G.esize_eq hr]
  rfl

theorem byte_ptr_t (hr : r < G.world) (offset : Nat) :
    (byte_ptr (G.args r).t_view offset : Prog D ω Addr) =
      .ret ((G.tensorAt r).1, (G.tensorAt r).2 + offset) := by
  simp [byte_ptr, MPSBufferView.cpu_ptr, G.t_shared r hr, tensorAt]

theorem byte_ptr_recv (hr : r < G.world) (offset : Nat) :
    (byte_ptr (G.args r).recv_view offset : Prog D ω Addr) =
      .ret ((G.scratchAt r).1, (G.scratchAt r).2 + offset) := by
  simp [byte_ptr, MPSBufferView.cpu_ptr, G.recv_shared r hr, scratchAt]

/-! ## Stores -/

/-- The devices of all ranks are idle and support the reduction, and all
    ranks work on the same operation. -/
structure Ready (f : Format) (k : BinaryOp) (st : Nat → RankStore D ω) : Prop where
  idle : ∀ r < G.world, (st r).aux.metal.Idle
  supports : ∀ r < G.world, (st r).aux.metal.cache.Supports G.dtype G.op f k
  tag : ∀ r < G.world, ∀ q < G.world, (st r).tag = (st q).tag

/-- Element `i` of the tensor of rank `r`. -/
def tensor (f : Format) (st : Nat → RankStore D ω) (r i : Nat) : D.F f :=
  elem (D.codec f) (st r).mem (G.tensorAt r) i

/-- Element `i` of the scratch of rank `r`. -/
def scratch (f : Format) (st : Nat → RankStore D ω) (r i : Nat) : D.F f :=
  elem (D.codec f) (st r).mem (G.scratchAt r) i

/-- The ranks are ready, and the tensor of rank `r` is `v r`. -/
structure Holds (f : Format) (k : BinaryOp) (v : Nat → Nat → D.F f)
    (st : Nat → RankStore D ω) : Prop where
  ready : G.Ready f k st
  tensor_eq : ∀ r < G.world, ∀ i < G.numel, G.tensor f st r i = v r i

variable {G} {st st' : Nat → RankStore D ω} {v v' : Nat → Nat → D.F f}

theorem Ready.size_eq (h : G.Ready f k st) (hw : 0 < G.world) :
    (D.codec f).size = G.dtype.elementSize := by
  rw [D.codec_size, format_size (h.supports 0 hw).format]

/-- Messages do not touch the device. -/
theorem Ready.of_eq (h : G.Ready f k st) (haux : ∀ r, (st' r).aux = (st r).aux)
    (htag : ∀ r, (st' r).tag = (st r).tag) : G.Ready f k st' where
  idle := fun r hr => haux r ▸ h.idle r hr
  supports := fun r hr => haux r ▸ h.supports r hr
  tag := fun r hr q hq => by rw [htag, htag]; exact h.tag r hr q hq

/-- The ranks in `p` execute a command. -/
def execOn (p : Nat → Prop) [DecidablePred p] (c : Nat → Cmd D) (st : Nat → RankStore D ω) :
    Nat → RankStore D ω :=
  fun r => if p r then execCmd (st r) (c r) else st r

theorem Ready.execOn (h : G.Ready f k st) (p : Nat → Prop) [DecidablePred p] (c : Nat → Cmd D) :
    G.Ready f k (execOn p c st) where
  idle := fun r hr => by
    unfold AllreduceGroup.execOn
    split
    · exact execCmd_idle (h.idle r hr) _
    · exact h.idle r hr
  supports := fun r hr => by
    unfold AllreduceGroup.execOn
    split
    · exact h.supports r hr
    · exact h.supports r hr
  tag := fun r hr q hq => by
    have htag : ∀ r, (AllreduceGroup.execOn p c st r).tag = (st r).tag := fun r => by
      unfold AllreduceGroup.execOn
      split <;> rfl
    rw [htag, htag]
    exact h.tag r hr q hq

theorem reduce_view_triple (cap : ℕ∞) (p : Nat → Prop) [DecidablePred p]
    {P Q : (Nat → RankStore D ω) → Prop} {dst src : Nat → MPSBufferView} {count : Nat → Nat}
    (hp : ∀ r, p r → r < G.world) (hP : ∀ st, P st → G.Ready f k st) (hQ : ∀ st, P st →
      Q (execOn p (fun r => .binary k f (dst r).addr (src r).addr (count r)) st)) :
    Triple cap G.ranks P (fun r => if p r then
      metal_reduce_op_view (dst r) (src r) G.dtype (count r) G.op else .ret ()) Q := by
  refine .comp (fun r _ => ?_) fun st h => ⟨_, hQ st h, fun r hr => ?_, fun r hr => ?_⟩
  · split
    · exact (metal_reduce_op_view_straight _ _ _ _ _).raceFree
    · trivial
  · rw [mem_ranks] at hr
    unfold execOn
    split
    · exact metal_reduce_op_view_computes ((hP st h).idle r hr) ((hP st h).supports r hr) _ _ _
    · exact Computes.ret _ _
  · exact if_neg fun hpr => hr (G.mem_ranks.mpr (hp r hpr))

theorem Holds.congr (h : G.Holds f k v st) (hv : ∀ r < G.world, ∀ i < G.numel, v r i = v' r i) :
    G.Holds f k v' st :=
  ⟨h.ready, fun r hr i hi => (h.tensor_eq r hr i hi).trans (hv r hr i hi)⟩

/-! ## Averages and results -/

/-- What is left to do with the reduction: averages are scaled. -/
def scaled (G : AllreduceGroup) (D : Device β) (f : Format) (y : D.F f) : D.F f :=
  if G.op = .AVG then D.apply .mul f y (D.viewFactor (D.recip G.world) f) else y

/-- The specified result for the inputs `x` of the ranks. -/
def result (G : AllreduceGroup) (D : Device β) (f : Format) (k : BinaryOp) (x : Nat → D.F f) :
    D.F f :=
  G.scaled D f (reduce (D.apply k f) x (G.world - 1))

theorem average_straight (args : AllreduceArgs) (op : RedOpType) (world : Nat) :
    (average args op world : Prog D ω Unit).Straight := by
  unfold average
  split
  · exact metal_scale_inplace_view_straight _ _ _ _
  · trivial

/-- The command that scales the tensor of rank `r`. -/
def scaleCmd (G : AllreduceGroup) (D : Device β) (f : Format) (r : Nat) : Cmd D :=
  .scale f (G.tensorAt r) (D.viewFactor (D.recip G.world) f) G.numel

/-- Averages scale the tensor of every rank. Whatever else is known (`I`) has
    to survive that. -/
theorem average_triple (G : AllreduceGroup) (cap : ℕ∞) (v : Nat → Nat → D.F f)
    {I : (Nat → RankStore D ω) → Prop}
    (hI : ∀ st, I st → I (execOn (· < G.world) (G.scaleCmd D f) st)) :
    Triple cap G.ranks (fun st => G.Holds f k v st ∧ I st)
      (fun r => average (G.args r) G.op G.world)
      (fun st => G.Holds f k (fun r i => G.scaled D f (v r i)) st ∧ I st) := by
  by_cases hop : G.op = .AVG
  · refine .comp (fun _ _ => (average_straight _ _ _).raceFree) fun st h => ?_
    obtain ⟨h, hIst⟩ := h
    refine ⟨execOn (· < G.world) (G.scaleCmd D f) st, ⟨⟨h.ready.execOn _ _, ?_⟩, hI st hIst⟩, ?_, ?_⟩
    · intro r hr i hi
      have helem := elem_store (c := D.codec f) (m := (st r).mem) (a := G.tensorAt r)
        (v := fun i => D.apply .mul f (G.tensor f st r i) (D.viewFactor (D.recip G.world) f)) hi
      simp only [tensor, execOn, hr, if_true, scaled, hop, ← h.tensor_eq r hr i hi]
      exact helem
    · intro r hr
      rw [mem_ranks] at hr
      have hsup := h.ready.supports r hr
      rw [hop] at hsup
      simp only [average, hop, if_true, execOn, hr, G.dtype_eq r hr, G.numel_eq r hr]
      exact metal_scale_inplace_view_computes (h.ready.idle r hr) hsup _ _ _
    · intro r hr
      rw [mem_ranks] at hr
      exact if_neg hr
  · refine ((Triple.skip G.ranks _).congr fun r _ => ?_).conseq (fun _ h => h) fun st h => ?_
    · simp [average, hop]
    · exact ⟨h.1.congr fun _ _ _ _ => by simp [scaled, hop], h.2⟩

theorem average_holds_triple (G : AllreduceGroup) (cap : ℕ∞) (v : Nat → Nat → D.F f) :
    Triple cap G.ranks (G.Holds f k v (ω := ω)) (fun r => average (G.args r) G.op G.world)
      (G.Holds f k fun r i => G.scaled D f (v r i)) :=
  (G.average_triple cap v (I := fun _ => True) fun _ _ => trivial).conseq
    (fun _ h => ⟨h, trivial⟩) fun _ h => h.1

/-! ## Runs -/

/-- All ranks are about to run the algorithm. -/
def initial (G : AllreduceGroup) (alg : AllreduceArgs → RedOpType → Nat → Nat → Prog D ω Unit)
    (st : Nat → RankStore D ω) : Net Nat Addr β (Local D ω) :=
  start G.ranks st fun r => alg (G.args r) G.op r G.world

/-- The stores of the ranks. -/
def stores (s : Net Nat Addr β (Local D ω)) (r : Nat) : RankStore D ω := (s.node r).store

/-- What a triple about an algorithm says about its complete runs. -/
theorem finished_run {cap : ℕ∞} {alg : AllreduceArgs → RedOpType → Nat → Nat → Prog D ω Unit}
    {Q : (Nat → RankStore D ω) → Prop} (h : Triple cap G.ranks (G.Holds f k (G.tensor f st))
      (fun r => alg (G.args r) G.op r G.world) Q) (hst : G.Ready f k st)
    {s : Net Nat Addr β (Local D ω)} (hs : Reaches cap (G.initial alg st) s) (hfin : s.Finished) :
    Q (stores s) ∧ (∀ r, (s.node r).prog = .ret ()) ∧ ∀ p q, s.chan p q = [] := by
  obtain ⟨st', hQ, hout⟩ := h.outcome ⟨hst, fun _ _ _ _ => rfl⟩
  obtain rfl : s = done st' := hout.unique hs hfin
  exact ⟨hQ, fun _ => rfl, fun _ _ => rfl⟩

/-! ## Chunks -/

/-- The chunk of element `i`. -/
def owner (G : AllreduceGroup) (i : Nat) : Nat := i / per_chunk G.numel G.world

theorem numel_le_per_chunk {n w : Nat} (hw : 0 < w) : n ≤ w * per_chunk n w := by
  have := Nat.div_add_mod (n + w - 1) w
  have := Nat.mod_lt (n + w - 1) hw
  unfold per_chunk
  omega

theorem per_chunk_pos {n w : Nat} (hw : 0 < w) (hn : 0 < n) : 0 < per_chunk n w :=
  Nat.div_pos (by omega) hw

theorem owner_lt (hw : 0 < G.world) (hi : i < G.numel) : G.owner i < G.world := by
  have hper := per_chunk_pos hw (Nat.zero_lt_of_lt hi)
  rw [owner, Nat.div_lt_iff_lt_mul hper]
  exact lt_of_lt_of_le hi (numel_le_per_chunk hw)

theorem mem_chunk (hw : 0 < G.world) (hi : i < G.numel) :
    (G.chunk c).elem_start ≤ i ∧ i < (G.chunk c).elem_start + (G.chunk c).elem_count ↔
      G.owner i = c := by
  have hper := per_chunk_pos hw (Nat.zero_lt_of_lt hi)
  simp only [chunk, chunkize, owner, Nat.div_eq_iff hper]
  have h1 : c * per_chunk G.numel G.world ≤ (c + 1) * per_chunk G.numel G.world :=
    Nat.mul_le_mul_right _ (Nat.le_succ c)
  have h2 : (c + 1) * per_chunk G.numel G.world =
      c * per_chunk G.numel G.world + per_chunk G.numel G.world := Nat.succ_mul ..
  omega

/-- Chunks follow each other. -/
theorem chunk_end_le {c' : Nat} (h : c < c') :
    (G.chunk c).elem_start + (G.chunk c).elem_count ≤ (G.chunk c').elem_start := by
  have h1 : (c + 1) * per_chunk G.numel G.world ≤ c' * per_chunk G.numel G.world :=
    Nat.mul_le_mul_right _ h
  have h2 : c * per_chunk G.numel G.world ≤ (c + 1) * per_chunk G.numel G.world :=
    Nat.mul_le_mul_right _ (Nat.le_succ c)
  simp only [chunk, chunkize]
  omega

theorem chunk_byte_off (c : Nat) :
    (G.chunk c).byte_off = (G.chunk c).elem_start * G.dtype.elementSize := rfl

theorem chunk_byte_len (c : Nat) :
    (G.chunk c).byte_len = (G.chunk c).elem_count * G.dtype.elementSize := rfl

/-- The bytes of chunk `c` of a tensor at `a`. -/
def chunkSpan (G : AllreduceGroup) (a : Addr) (c : Nat) : List Addr :=
  span (a.1, a.2 + (G.chunk c).byte_off) (G.chunk c).byte_len

theorem disjoint_chunkSpan (a : Addr) {c' : Nat} (h : c ≠ c') :
    List.Disjoint (G.chunkSpan a c) (G.chunkSpan a c') := by
  have key : ∀ {c c' : Nat}, c < c' →
      List.Disjoint (G.chunkSpan a c) (G.chunkSpan a c') := by
    intro c c' hlt
    refine disjoint_span_of_le _ ?_
    have := Nat.mul_le_mul_right G.dtype.elementSize (chunk_end_le (G := G) hlt)
    rw [Nat.add_mul] at this
    simp only [chunk_byte_off, chunk_byte_len]
    omega
  rcases Nat.lt_or_gt_of_ne h with hlt | hlt
  · exact key hlt
  · exact (key hlt).symm

theorem elem_reduce_chunk (hw : 0 < G.world) (hsize : (D.codec f).size = G.dtype.elementSize)
    (m : Addr → β) (a src : Addr) (c : Nat) (hi : i < G.numel) :
    elem (D.codec f) ((Cmd.binary k f (a.1, a.2 + (G.chunk c).byte_off) src
        (G.chunk c).elem_count : Cmd D).exec m) a i =
      if G.owner i = c then
        D.apply k f (elem (D.codec f) m a i) (elem (D.codec f) m src (i - (G.chunk c).elem_start))
      else elem (D.codec f) m a i := by
  simp only [Cmd.exec, chunk_byte_off, ← hsize, elem_store_offset, mem_chunk hw hi, elem_offset]
  split
  · rw [Nat.add_sub_cancel' ((mem_chunk hw hi).mpr ‹_›).1]
  · rfl

theorem elem_of_chunkSpan (hw : 0 < G.world) (hsize : (D.codec f).size = G.dtype.elementSize)
    {b : Addr} (h : ∀ (j : Nat) (x y : Addr), (G.chunkSpan a c)[j]? = some x →
      (span b (G.chunk c).byte_len)[j]? = some y → m' y = m x)
    (hi : i < G.numel) (howner : G.owner i = c) :
    elem (D.codec f) m' b (i - (G.chunk c).elem_start) = elem (D.codec f) m a i := by
  have hmem := (mem_chunk hw hi).mpr howner
  have hoff := elem_offset (c := D.codec f) m a (G.chunk c).elem_start
    (i - (G.chunk c).elem_start)
  rw [Nat.add_sub_cancel' hmem.1, hsize, ← chunk_byte_off] at hoff
  rw [← hoff]
  refine elem_of_bytes (n := (G.chunk c).elem_count) (fun j hj => ?_) (by omega)
  rw [hsize, ← chunk_byte_len] at hj
  exact h j _ _ (getElem?_span _ hj) (getElem?_span _ hj)

theorem elem_of_chunkSpans (hw : 0 < G.world) (hsize : (D.codec f).size = G.dtype.elementSize)
    {b : Addr} (h : ∀ (j : Nat) (x y : Addr), (G.chunkSpan a c)[j]? = some x →
      (G.chunkSpan b c)[j]? = some y → m' y = m x) (hi : i < G.numel) (howner : G.owner i = c) :
    elem (D.codec f) m' b i = elem (D.codec f) m a i := by
  have hmem := (mem_chunk hw hi).mpr howner
  have hoff := elem_offset (c := D.codec f) m' b (G.chunk c).elem_start
    (i - (G.chunk c).elem_start)
  rw [Nat.add_sub_cancel' hmem.1, hsize, ← chunk_byte_off] at hoff
  rw [← hoff]
  exact elem_of_chunkSpan hw hsize h hi howner

theorem elem_of_chunk_eq (hw : 0 < G.world) (hsize : (D.codec f).size = G.dtype.elementSize)
    (hi : i < G.numel) (h : ∀ x ∈ G.chunkSpan a (G.owner i), m' x = m x) :
    elem (D.codec f) m' a i = elem (D.codec f) m a i := by
  have hmem := (mem_chunk hw hi).mpr (rfl : G.owner i = G.owner i)
  refine elem_congr fun j hj => h _ (mem_span.mpr ⟨rfl, ?_, ?_⟩)
  · have := Nat.mul_le_mul_right G.dtype.elementSize hmem.1
    simp only [chunk_byte_off, hsize]
    omega
  · have := index_lt (c := D.codec f) hmem.2 hj
    rw [hsize, Nat.add_mul] at this
    simp only [chunk_byte_off, chunk_byte_len, hsize]
    omega

end AllreduceGroup

/-! ## A small group

    Natural numbers as values, each byte of which is the value itself. -/

def natDevice : Device Nat where
  F := fun _ => Nat
  codec := fun f =>
    { size := f.size
      size_pos := f.size_pos
      enc := fun x _ => x
      dec := fun b => b ⟨0, f.size_pos⟩
      dec_enc := fun _ => rfl }
  codec_size := fun _ => rfl
  apply := fun op _ x y =>
    match op with
    | .add => x + y
    | .min => min x y
    | .max => max x y
    | .mul => x * y
  Double := Nat
  recip := id
  toF32 := id
  toF16 := id
  roundBF16 := id
  truncBF16 := id
  widenBF16 := id

instance (f : Format) : DecidableEq (natDevice.F f) := inferInstanceAs (DecidableEq Nat)

/-- Three ranks with four elements each. -/
def smallGroup (op : RedOpType) : AllreduceGroup where
  world := 3
  op := op
  dtype := .Float
  numel := 4
  args := fun _ =>
    { t_view := ⟨.mtl 0, 0, 16, true⟩
      recv_view := ⟨.tmp 0, 0, 16, true⟩
      dtype := .Float
      numel := 4
      fresh := by decide }
  dtype_eq := fun _ _ => rfl
  numel_eq := fun _ _ => rfl
  t_shared := fun _ _ => rfl
  recv_shared := fun _ _ => rfl

/-- Rank `r` starts with the elements `10 * r`, ..., `10 * r + 3`. -/
def smallStores (r : Nat) : RankStore natDevice Unit where
  mem := fun a => 10 * r + a.2 / 4
  aux := ⟨⟨⟨true, fun _ _ => true, fun _ => true⟩, none, [], []⟩, ()⟩
  tag := 0

theorem smallGroup_ready : (smallGroup .SUM).Ready .f32 .add smallStores where
  idle := fun _ _ => ⟨rfl, rfl⟩
  supports := fun _ _ => ⟨rfl, rfl, rfl, rfl, fun _ => rfl⟩
  tag := fun _ _ _ _ => rfl

theorem smallGroup_result : ∀ i < 4, (smallGroup .SUM).result natDevice .f32 .add
    (fun q => (smallGroup .SUM).tensor .f32 smallStores q i) = 30 + 3 * i := by
  decide

theorem natDevice_add_comm : Std.Commutative (natDevice.apply .add .f32) := ⟨Nat.add_comm⟩

theorem natDevice_add_assoc : Std.Associative (natDevice.apply .add .f32) := ⟨Nat.add_assoc⟩

end Mccl
