import Mccl.Dmem.AddressResolution

/-! # The Regions of Distributed Tensors

    Model of which memory a `DistributedTensor` (`distributed/tensor.py`) has
    registered, and which memory its local tensor has, over the region table of the
    node (`dmem/DistributedMemoryManager.cpp`). An operation is a list of statements.
    An exception ends it before any of them.

    * `Covers`: the region of a tensor is the storage of its local data.
    * `regions_exact`: from a state where this holds for all tensors, when a
      statement keeps it. The element-wise minimum and maximum never do: they rebind
      the local tensor and do not register it again.
    * A view is registered from the start of its storage with its own size, and a
      region id that is passed in is not checked. -/

namespace Mccl.TensorRegions

open Mccl.Dmem

/-- `storage().data_ptr()` and the size of the storage. -/
structure Storage where
  data_ptr : UInt64
  nbytes : UInt64
deriving DecidableEq

/-- A `torch.Tensor`, as far as its memory goes. -/
structure TensorView where
  mps : Bool
  is_contiguous : Bool
  storage : Storage
  /-- `numel() * element_size()`. -/
  nbytes : UInt64

/-- `contiguous()`: a copy has a storage of its own, at `copy`. -/
def TensorView.contiguous (t : TensorView) (copy : UInt64) : TensorView :=
  if t.is_contiguous then t else { t with is_contiguous := true, storage := ⟨copy, t.nbytes⟩ }

structure DistributedTensor where
  /-- The storage of `_local`. -/
  storage : Storage
  region_id : UInt32
  node_id : Nat

/-- An entry of a region table that is this storage. -/
def IsRegion (regions : List MemoryRegion) (id : Nat) (s : Storage) : Prop :=
  ∃ region, regions[id]? = some region ∧ 0 < region.length ∧
    region.local_addr = s.data_ptr ∧ region.length = s.nbytes

/-- The region of the tensor is the storage of its local data. -/
def Covers (m : Manager) (t : DistributedTensor) : Prop := IsRegion m.regions_ t.region_id.toNat t.storage

/-! ## Operations -/

/-- An entry of `peer_regions`, with what the loops allocate for it. -/
structure PeerRegion where
  node : Nat
  /-- `peer_elements * element_size()`. -/
  nbytes : UInt64
  tmp_ptr : UInt64
  /-- The storage of the result of `torch.minimum` or `torch.maximum`. -/
  result : Storage

inductive AllReduceOp where
  | sum
  | avg
  | min
  | max
  /-- Any other string. -/
  | unknown

inductive Stmt where
  /-- `mul_`, `add_`, `copy_`, `put`, `get` and their completions: nothing is bound. -/
  | inPlace
  /-- `tmp_region = register_region(ptr, nbytes, 0x03)`. -/
  | register (ptr nbytes : UInt64)
  /-- `unregister_region(tmp_region)`. -/
  | unregister
  /-- `self._local = torch.minimum(self._local, tmp)`, or the maximum. -/
  | rebind (self : Nat) (result : Storage)
  /-- The assignments of `__init__`. -/
  | construct (local_tensor : TensorView) (node_id : Nat) (region_id : Option UInt32)

inductive TensorCall where
  | init (local_tensor : TensorView) (copy : UInt64) (node_id : Nat) (region_id : Option UInt32)
  | sync_gradient (self : Nat) (peer_regions : List PeerRegion)
  | all_reduce (self : Nat) (peer_regions : List PeerRegion) (op : AllReduceOp)
  /-- `full` is what `torch.empty` allocates, `nbytes` its size by the element size of
      the local tensor. -/
  | all_gather (self : Nat) (peer_regions : List PeerRegion) (full : Storage) (nbytes : UInt64)
  | reduce_scatter (self : Nat) (peer_regions : List PeerRegion)

/-- The peers that the loops do not skip. -/
def others (my_node : Nat) (peer_regions : List PeerRegion) : List PeerRegion :=
  peer_regions.filter fun p => p.node ≠ my_node

def sync_gradient (my_node : Nat) (peer_regions : List PeerRegion) : List Stmt :=
  .inPlace :: (others my_node peer_regions).map fun _ => .inPlace

def elementwise_reduce (self my_node : Nat) (peer_regions : List PeerRegion) : List Stmt :=
  (others my_node peer_regions).flatMap fun p =>
    [.register p.tmp_ptr p.nbytes, .inPlace, .rebind self p.result, .unregister]

def all_reduce (self my_node : Nat) (peer_regions : List PeerRegion) : AllReduceOp → List Stmt
  | .sum => sync_gradient my_node peer_regions
  | .avg => sync_gradient my_node peer_regions ++ [.inPlace]
  | .min => elementwise_reduce self my_node peer_regions
  | .max => elementwise_reduce self my_node peer_regions
  | .unknown => []

/-- The region that is registered first is never used, the new tensor registers the
    buffer again. -/
def all_gather (my_node : Nat) (peer_regions : List PeerRegion) (full : Storage) (nbytes : UInt64) : List Stmt :=
  .register full.data_ptr nbytes :: .inPlace :: (others my_node peer_regions).map (fun _ => .inPlace) ++
    [.construct ⟨true, true, full, full.nbytes⟩ my_node none]

def reduce_scatter (my_node : Nat) (peer_regions : List PeerRegion) : List Stmt :=
  (others my_node peer_regions).flatMap fun p => [.register p.tmp_ptr p.nbytes, .inPlace, .inPlace, .unregister]

def init (local_tensor : TensorView) (copy : UInt64) (node_id : Nat) (region_id : Option UInt32) : List Stmt :=
  if local_tensor.mps then [.construct (local_tensor.contiguous copy) node_id region_id] else []

structure Process where
  dmem : Manager
  /-- In the order of their construction; a deleted one is `none`. -/
  tensors : List (Option DistributedTensor) := []
  /-- What is left of the running operation. -/
  todo : List Stmt := []
  tmp_region : Option UInt32 := none

namespace Process

def Live (p : Process) (t : DistributedTensor) : Prop := some t ∈ p.tensors

def program (p : Process) : TensorCall → List Stmt
  | .init local_tensor copy node_id region_id => init local_tensor copy node_id region_id
  | .sync_gradient self peer_regions =>
    (p.tensors[self]?.join.map fun t => TensorRegions.sync_gradient t.node_id peer_regions).getD []
  | .all_reduce self peer_regions op =>
    (p.tensors[self]?.join.map fun t => TensorRegions.all_reduce self t.node_id peer_regions op).getD []
  | .all_gather self peer_regions full nbytes =>
    (p.tensors[self]?.join.map fun t => TensorRegions.all_gather t.node_id peer_regions full nbytes).getD []
  | .reduce_scatter self peer_regions =>
    (p.tensors[self]?.join.map fun t => TensorRegions.reduce_scatter t.node_id peer_regions).getD []

/-- `none` is an exception. `mr` is what `ibv_reg_mr` returns, if it is called. -/
def exec (p : Process) (mr : Option (UInt32 × UInt32)) : Stmt → Option Process
  | .inPlace => some p
  | .register ptr nbytes =>
    match p.dmem.register_region ptr nbytes 3 mr with
    | .ok (region_id, dmem) => some { p with dmem := dmem, tmp_region := some region_id }
    | .error _ => none
  | .unregister => p.tmp_region.map fun region_id => { p with dmem := p.dmem.unregister_region region_id }
  | .rebind self result =>
    p.tensors[self]?.join.map fun t => { p with tensors := p.tensors.set self (some { t with storage := result }) }
  | .construct t node_id none =>
    match p.dmem.register_region t.storage.data_ptr t.nbytes 3 mr with
    | .ok (region_id, dmem) =>
      some { p with dmem := dmem, tensors := p.tensors ++ [some ⟨t.storage, region_id, node_id⟩] }
    | .error _ => none
  | .construct t node_id (some region_id) =>
    some { p with tensors := p.tensors ++ [some ⟨t.storage, region_id, node_id⟩] }

/-- A result is not where a live tensor is. -/
def Allocates (p : Process) : Stmt → Prop
  | .rebind _ result => ∀ t, p.Live t → t.storage.data_ptr ≠ result.data_ptr
  | _ => True

inductive Label where
  | call (c : TensorCall)
  | exec (mr : Option (UInt32 × UInt32))
  | raise
  | delete (self : Nat)

inductive Step : Process → Label → Process → Prop where
  | call {p : Process} (hidle : p.todo = []) (c : TensorCall) : Step p (.call c) { p with todo := p.program c }
  | exec {p p' : Process} {mr : Option (UInt32 × UInt32)} {stmt : Stmt} {rest : List Stmt}
      (htodo : p.todo = stmt :: rest) (hfresh : p.Allocates stmt) (h : { p with todo := rest }.exec mr stmt = some p') :
      Step p (.exec mr) p'
  | raise (p : Process) : Step p .raise { p with todo := [] }
  /-- `__del__`. -/
  | delete {p : Process} (hidle : p.todo = []) {self : Nat} {t : DistributedTensor}
      (h : p.tensors[self]? = some (some t)) :
      Step p (.delete self)
        { p with tensors := p.tensors.set self none, dmem := p.dmem.unregister_region t.region_id }

def system (dmem : Manager) : System Process Label := ⟨fun p => p = { dmem := dmem }, Step⟩

/-- Every region backs its tensor. -/
def Covered (p : Process) : Prop := ∀ t, p.Live t → Covers p.dmem t

/-- A tensor whose region has the id of the next registration has this storage: the
    ids wrap. -/
def Spares (p : Process) (s : Storage) : Prop :=
  ∀ t, p.Live t → t.region_id = p.dmem.next_region_id_ → t.storage = s

/-- The statements that keep the regions right. -/
def KeepsStmt (p : Process) : Stmt → Prop
  | .inPlace => True
  | .register ptr nbytes => p.Spares ⟨ptr, nbytes⟩
  | .unregister => ∀ t, p.Live t → p.tmp_region ≠ some t.region_id
  | .rebind _ _ => False
  -- the tensor is not a view of a larger storage
  | .construct t _ none => t.storage.nbytes = t.nbytes ∧ p.Spares t.storage
  | .construct t node_id (some region_id) => Covers p.dmem ⟨t.storage, region_id, node_id⟩

/-- The steps that keep the regions right. -/
def Keeps (p : Process) : Label → Prop
  | .call _ => True
  | .exec _ => ∀ stmt, p.todo.head? = some stmt → p.KeepsStmt stmt
  | .raise => True
  | .delete self =>
    ∀ t, p.tensors[self]? = some (some t) →
      ∀ j t', j ≠ self → p.tensors[j]? = some (some t') → t'.region_id ≠ t.region_id

end Process

/-! ## The Region Table -/

theorem isRegion_set {regions : List MemoryRegion} {id k : Nat} {region : MemoryRegion} (h : k ≠ id) (s : Storage) :
    IsRegion (regions.set id region) k s ↔ IsRegion regions k s := by
  unfold IsRegion
  rw [List.getElem?_set_ne h.symm]

/-- Entries that the table grows by are no regions. -/
theorem isRegion_append_replicate (regions : List MemoryRegion) (n k : Nat) (s : Storage) :
    IsRegion (regions ++ List.replicate n default) k s ↔ IsRegion regions k s := by
  by_cases hk : k < regions.length
  · unfold IsRegion
    rw [List.getElem?_append_left hk]
  · have hnone : ¬IsRegion regions k s := by
      intro h
      obtain ⟨region, hregion, -⟩ := h
      exact hk (List.getElem?_eq_some_iff.mp hregion).1
    refine iff_of_false (fun h => ?_) hnone
    obtain ⟨region, hregion, hlength, -⟩ := h
    rw [List.getElem?_append_right (Nat.not_lt.mp hk)] at hregion
    rw [List.eq_of_mem_replicate (List.mem_of_getElem? hregion)] at hlength
    exact absurd hlength (by decide)

theorem isRegion_default (regions : List MemoryRegion) (id : Nat) (s : Storage) :
    ¬IsRegion (regions.set id default) id s := by
  intro h
  obtain ⟨region, hregion, hlength, -⟩ := h
  obtain ⟨hlt, heq⟩ := List.getElem?_eq_some_iff.mp hregion
  rw [List.getElem_set_self] at heq
  rw [← heq] at hlength
  exact absurd hlength (by decide)

variable {m m' : Manager} {t : DistributedTensor}

theorem covers_register {ptr nbytes : UInt64} {flags : UInt8} {mr : Option (UInt32 × UInt32)} {region_id : UInt32}
    (h : m.register_region ptr nbytes flags mr = .ok (region_id, m')) (t : DistributedTensor) :
    Covers m' t ↔ if t.region_id = m.next_region_id_ then t.storage = ⟨ptr, nbytes⟩ else Covers m t := by
  unfold Manager.register_region at h
  split at h
  · cases h
  split at h
  · cases h
  rename_i hlength
  cases mr with
  | none => cases h
  | some keys =>
    cases h
    unfold Covers Manager.setRegion
    split
    · rename_i hid
      rw [hid]
      unfold IsRegion
      rw [List.getElem?_set_self (by rw [List.length_append, List.length_replicate]; omega)]
      constructor
      · intro hregion
        obtain ⟨region, hregion, -, hptr, hnbytes⟩ := hregion
        cases hregion
        exact congrArg₂ Storage.mk hptr.symm hnbytes.symm
      · intro hstorage
        rw [hstorage]
        exact ⟨_, rfl, UInt64.pos_iff_ne_zero.mpr hlength, rfl, rfl⟩
    · rename_i hid
      have hne : t.region_id.toNat ≠ m.next_region_id_.toNat := fun heq => hid (UInt32.toNat_inj.mp heq)
      rw [isRegion_set hne, isRegion_append_replicate]

theorem register_region_id {ptr nbytes : UInt64} {flags : UInt8} {mr : Option (UInt32 × UInt32)} {region_id : UInt32}
    (h : m.register_region ptr nbytes flags mr = .ok (region_id, m')) : region_id = m.next_region_id_ := by
  unfold Manager.register_region at h
  grind

theorem covers_unregister (m : Manager) (region_id : UInt32) (t : DistributedTensor) :
    Covers (m.unregister_region region_id) t ↔ t.region_id ≠ region_id ∧ Covers m t := by
  unfold Covers Manager.unregister_region
  by_cases hid : t.region_id = region_id
  · refine iff_of_false ?_ fun h => h.1 hid
    rw [hid]
    split
    · exact isRegion_default _ _ _
    · rename_i hlt
      intro h
      obtain ⟨region, hregion, -⟩ := h
      exact hlt (List.getElem?_eq_some_iff.mp hregion).1
  · have hne : t.region_id.toNat ≠ region_id.toNat := fun heq => hid (UInt32.toNat_inj.mp heq)
    rw [and_iff_right hid]
    split
    · exact isRegion_set hne _
    · exact Iff.rfl

/-! ## Runs -/

namespace Process

variable {p p' : Process} {dmem : Manager} {mr : Option (UInt32 × UInt32)} {stmt : Stmt} {rest : List Stmt}

/-- A registration that is not for a new tensor. -/
theorem covered_register (h : p.Covered) {ptr nbytes : UInt64} {region_id : UInt32}
    {dmem : Manager} (hregister : p.dmem.register_region ptr nbytes 3 mr = .ok (region_id, dmem)) :
    (∀ t, p.Live t → Covers dmem t) ↔ p.Spares ⟨ptr, nbytes⟩ := by
  refine forall_congr' fun t => ?_
  rw [covers_register hregister]
  constructor
  · intro hcovers ht hid
    have hif := hcovers ht
    rw [if_pos hid] at hif
    exact hif
  · intro hspares ht
    split
    · rename_i hid
      exact hspares ht hid
    · exact h t ht

theorem covered_construct {m : Manager} {tensors : List (Option DistributedTensor)} (t : DistributedTensor) :
    (∀ t', some t' ∈ tensors ++ [some t] → Covers m t') ↔ (∀ t', some t' ∈ tensors → Covers m t') ∧ Covers m t := by
  constructor
  · intro h
    exact ⟨fun t' ht' => h t' (List.mem_append_left _ ht'), h t (List.mem_append_right _ (List.mem_singleton_self _))⟩
  · intro h t' ht'
    rcases List.mem_append.mp ht' with hold | hnew
    · exact h.1 t' hold
    · rw [Option.some.inj (List.mem_singleton.mp hnew)]
      exact h.2

/-- What each statement does to the regions, from a state in which they are right. -/
theorem covered_exec (h : p.Covered)
    (hfresh : p.Allocates stmt) (hexec : { p with todo := rest }.exec mr stmt = some p') :
    p'.Covered ↔ p.KeepsStmt stmt := by
  cases stmt with
  | inPlace =>
    cases hexec
    exact iff_of_true h trivial
  | register ptr nbytes =>
    simp only [exec] at hexec
    split at hexec
    · rename_i region_id dmem hregister
      cases hexec
      exact covered_register h hregister
    · cases hexec
  | unregister =>
    simp only [exec] at hexec
    obtain ⟨region_id, htmp, rfl⟩ := Option.map_eq_some_iff.mp hexec
    have htmp : p.tmp_region = some region_id := htmp
    show (∀ t, p.Live t → Covers (p.dmem.unregister_region region_id) t) ↔ ∀ t, p.Live t → p.tmp_region ≠ some t.region_id
    refine forall_congr' fun t => imp_congr_right fun ht => ?_
    rw [covers_unregister, and_iff_left (h t ht), htmp, ne_eq, ne_eq, Option.some.injEq, eq_comm]
  | rebind self result =>
    simp only [exec] at hexec
    obtain ⟨t, ht, rfl⟩ := Option.map_eq_some_iff.mp hexec
    have hself : p.tensors[self]? = some (some t) := Option.join_eq_some_iff.mp ht
    refine iff_of_false (fun hcovered => ?_) id
    -- the region is where the old storage is, and the result is not
    obtain ⟨region, hregion, -, hptr, -⟩ := h t (List.mem_of_getElem? hself)
    obtain ⟨region', hregion', -, hptr', -⟩ := hcovered { t with storage := result }
      (List.mem_of_getElem? (List.getElem?_set_self (List.getElem?_eq_some_iff.mp hself).1))
    have hsame : some region = some region' := hregion.symm.trans hregion'
    cases hsame
    exact hfresh t (List.mem_of_getElem? hself) (hptr.symm.trans hptr')
  | construct t node_id region_id =>
    cases region_id with
    | none =>
      simp only [exec] at hexec
      split at hexec
      · rename_i region_id dmem hregister
        cases hexec
        have hid := register_region_id hregister
        have hnew : Covers dmem ⟨t.storage, region_id, node_id⟩ ↔ t.storage = ⟨t.storage.data_ptr, t.nbytes⟩ := by
          rw [covers_register hregister]
          exact iff_of_eq (if_pos hid)
        have hsize : t.storage = ⟨t.storage.data_ptr, t.nbytes⟩ ↔ t.storage.nbytes = t.nbytes :=
          ⟨fun heq => congrArg Storage.nbytes heq, fun heq => congrArg (Storage.mk _) heq⟩
        refine (covered_construct _).trans ((and_congr (covered_register h hregister) hnew).trans ?_)
        show _ ↔ t.storage.nbytes = t.nbytes ∧ p.Spares t.storage
        rw [and_comm, ← hsize]
        refine and_congr_right fun heq => ?_
        rw [← heq]
      · cases hexec
    | some region_id =>
      cases hexec
      exact (covered_construct _).trans (and_iff_right h)

theorem covered_delete (h : p.Covered) {self : Nat} {t : DistributedTensor} (ht : p.tensors[self]? = some (some t)) :
    { p with tensors := p.tensors.set self none, dmem := p.dmem.unregister_region t.region_id }.Covered ↔
      p.Keeps (.delete self) := by
  constructor
  · intro hcovered t₁ ht₁ j t' hj ht'
    obtain rfl : t = t₁ := Option.some.inj (Option.some.inj (ht.symm.trans ht₁))
    have hlive : some t' ∈ p.tensors.set self none := by
      apply List.mem_of_getElem?
      rw [List.getElem?_set_ne hj.symm]
      exact ht'
    exact ((covers_unregister ..).mp (hcovered t' hlive)).1
  · intro hkeeps t' ht'
    obtain ⟨j, hj⟩ := List.mem_iff_getElem?.mp (show some t' ∈ p.tensors.set self none from ht')
    have hne : j ≠ self := by
      intro heq
      rw [heq, List.getElem?_set_self (List.getElem?_eq_some_iff.mp ht).1] at hj
      cases hj
    rw [List.getElem?_set_ne hne.symm] at hj
    exact (covers_unregister ..).mpr ⟨hkeeps t ht j t' hne hj, h t' (List.mem_of_getElem? hj)⟩

theorem keeps_exec_iff (htodo : p.todo = stmt :: rest) :
    p.Keeps (.exec mr) ↔ p.KeepsStmt stmt := by
  constructor
  · intro hkeeps
    apply hkeeps
    rw [htodo]
    rfl
  · intro hkeeps stmt' hstmt
    rw [htodo] at hstmt
    exact Option.some.inj hstmt ▸ hkeeps

theorem covered_step {a : Label} (h : p.Covered) (hs : Step p a p') : p'.Covered ↔ p.Keeps a := by
  cases hs with
  | call hidle c => exact iff_of_true h trivial
  | exec htodo hfresh hexec => rw [covered_exec h hfresh hexec, keeps_exec_iff htodo]
  | raise => exact iff_of_true h trivial
  | delete hidle ht => exact covered_delete h ht

theorem covered_of_reach (h : (system dmem).Reach Keeps p) : p.Covered := by
  apply System.Reach.invariant (I := Covered) _ _ h
  · intro p hp
    rw [hp]
    intro t ht
    exact absurd ht List.not_mem_nil
  · intro p a p' hI hok hstep
    exact (covered_step hI hstep).mpr hok

/-- **Regions** back their tensors along runs of such steps, and in the next step
    exactly if that is one as well. -/
theorem regions_exact (h : (system dmem).Reach Keeps p) :
    p.Covered ∧ ∀ a p', Step p a p' → (p'.Covered ↔ p.Keeps a) := by
  have hcovered := covered_of_reach h
  exact ⟨hcovered, fun a p' hs => covered_step hcovered hs⟩

/-- One more statement of the running operation. -/
theorem reach_exec {ok : Process → Label → Prop} (h : (system dmem).Reach ok p) (mr : Option (UInt32 × UInt32))
    (htodo : p.todo = stmt :: rest) (hok : ok p (.exec mr)) (hfresh : p.Allocates stmt)
    (hexec : { p with todo := rest }.exec mr stmt = some p') : (system dmem).Reach ok p' :=
  h.step hok (.exec htodo hfresh hexec)

theorem reach_keeps (h : (system dmem).Reach Keeps p) (mr : Option (UInt32 × UInt32))
    (htodo : p.todo = stmt :: rest) (hkeeps : p.KeepsStmt stmt) (hfresh : p.Allocates stmt)
    (hexec : { p with todo := rest }.exec mr stmt = some p') : (system dmem).Reach Keeps p' :=
  reach_exec h mr htodo ((keeps_exec_iff htodo).mpr hkeeps) hfresh hexec

/-- A tensor of 64 bytes is constructed and summed with that of a peer. -/
theorem regions_exact_scattered :
    ∃ p, (system (.new 0)).Reach Keeps p ∧ p.tensors = [some ⟨⟨4096, 64⟩, 1, 0⟩] ∧ p.todo = [] ∧ p.Covered := by
  have hinit : (system (.new 0)).Reach Keeps _ := .init rfl
  have hcall := hinit.next (.call rfl (.init ⟨true, true, ⟨4096, 64⟩, 64⟩ 0 0 none))
  have hconstruct := reach_keeps hcall (some (7, 7)) rfl
    (by exact ⟨rfl, fun t ht => absurd ht List.not_mem_nil⟩) trivial rfl
  have hscatter := hconstruct.next (.call rfl (.reduce_scatter 0 [⟨1, 64, 8192, ⟨0, 0⟩⟩]))
  have hid : ∀ t, some t ∈ [some (⟨⟨4096, 64⟩, 1, 0⟩ : DistributedTensor)] → t.region_id = 1 := by
    intro t ht
    rw [Option.some.inj (List.mem_singleton.mp ht)]
  have hregister := reach_keeps hscatter (some (8, 8)) rfl
    (by exact fun t ht hnext => absurd ((hid t ht).symm.trans hnext) (by decide)) trivial rfl
  have hget := reach_keeps hregister none rfl trivial trivial rfl
  have hadd := reach_keeps hget none rfl trivial trivial rfl
  have hunregister := reach_keeps hadd none rfl
    (by exact fun t ht htmp => absurd ((Option.some.inj htmp).trans (hid t ht)) (by decide)) trivial rfl
  exact ⟨_, hunregister, rfl, rfl, (regions_exact hunregister).1⟩

/-- The maximum with one peer leaves the region where the old local tensor was. -/
theorem maximum_leaves_region :
    ∃ p, (system (.new 0)).Reachable p ∧ p.todo = [] ∧ p.tensors = [some ⟨⟨12288, 64⟩, 1, 0⟩] ∧
      (p.dmem.resolve ⟨0, 1, 0⟩).local_ptr = 4096 ∧ ¬p.Covered := by
  have hinit : (system (.new 0)).Reachable _ := .init rfl
  have hcall := hinit.next (.call rfl (.init ⟨true, true, ⟨4096, 64⟩, 64⟩ 0 0 none))
  have hconstruct := reach_exec hcall (some (7, 7)) rfl trivial trivial rfl
  have hreduce := hconstruct.next (.call rfl (.all_reduce 0 [⟨1, 64, 8192, ⟨12288, 64⟩⟩] .max))
  have hregister := reach_exec hreduce (some (8, 8)) rfl trivial trivial rfl
  have hget := reach_exec hregister none rfl trivial trivial rfl
  have hfresh : ∀ t, some t ∈ [some (⟨⟨4096, 64⟩, 1, 0⟩ : DistributedTensor)] → t.storage.data_ptr ≠ 12288 := by
    intro t ht
    rw [Option.some.inj (List.mem_singleton.mp ht)]
    decide
  have hrebind := reach_exec hget none rfl trivial hfresh rfl
  have hunregister := reach_exec hrebind none rfl trivial trivial rfl
  refine ⟨_, hunregister, rfl, rfl, rfl, fun hcovered => ?_⟩
  obtain ⟨region, hregion, -, hptr, -⟩ := hcovered _ (List.mem_singleton_self _)
  cases hregion
  exact absurd hptr (by decide)

end Process

end Mccl.TensorRegions
