import Mccl.Backend.ProcessGroup

/-! # Rounds of the Process Group

    What the rounds of the collectives have in common: checks that pass,
    receive buffers that are cleared, blocks that are copied to their tensors,
    and what the user's memory looks like in between. -/

namespace Mccl

open ForkJoin Arrays

variable {D : Device UInt8}

/-! ## Tensors and memory -/

/-- No rank copies its tensors. -/
abbrev AllShared (w : Nat) (output input : Nat → Tensor) : Prop :=
  ∀ q < w, (input q).shared = true ∧ (output q).shared = true

/-- A tensor that the collectives accept. -/
structure Tensor.Valid (t : Tensor) : Prop extends t.Ok where
  user : t.User

/-- The tensors have no byte in common. -/
def Tensor.Apart (t u : Tensor) : Prop := List.Disjoint t.span u.span

/-- The user's memory is as before. -/
def SameUser (m m' : Addr → UInt8) : Prop := ∀ id j, m' (.mtl id, j) = m (.mtl id, j)

/-- The user's memory is as before, except for the tensors `ts`. -/
def Untouched (ts : List Tensor) (m m' : Addr → UInt8) : Prop :=
  ∀ id j, (∀ t ∈ ts, (.mtl id, j) ∉ t.span) → m' (.mtl id, j) = m (.mtl id, j)

variable {t u : Tensor} {m m' m'' : Addr → UInt8}

theorem SameUser.refl (m : Addr → UInt8) : SameUser m m := fun _ _ => rfl

theorem SameUser.trans (h : SameUser m m') (h' : SameUser m' m'') : SameUser m m'' :=
  fun id j => (h' id j).trans (h id j)

theorem SameUser.byte (h : SameUser m m') (ht : t.User) (j : Nat) : t.byte m' j = t.byte m j := by
  obtain ⟨id, hid⟩ := ht
  simp only [Tensor.byte, Tensor.addr, hid]
  exact h id _

variable {ts : List Tensor}

theorem SameUser.untouched (h : SameUser m m') (h' : Untouched ts m' m'') :
    Untouched ts m m'' :=
  fun id j hj => (h' id j hj).trans (h id j)

theorem Untouched.trans (h : Untouched ts m m') (h' : Untouched ts m' m'') :
    Untouched ts m m'' :=
  fun id j hj => (h' id j hj).trans (h id j hj)

theorem Untouched.mono {ts ts' : List Tensor} (h : Untouched ts m m') (hsub : ts ⊆ ts') :
    Untouched ts' m m' :=
  fun id j hj => h id j fun t ht => hj t (hsub ht)

theorem Untouched.succ {f : Nat → Tensor} {i : Nat} (h : Untouched ((List.range i).map f) m m')
    (h' : Untouched [f i] m' m'') : Untouched ((List.range (i + 1)).map f) m m'' := by
  rw [List.range_succ, List.map_append]
  exact (h.mono (List.subset_append_left _ _)).trans (h'.mono (List.subset_append_right _ _))

theorem Tensor.byte_mem_span {j : Nat} (hj : j < t.nbytes) :
    (t.addr.1, t.addr.2 + j) ∈ t.span :=
  mem_span.mpr ⟨rfl, Nat.le_add_right _ _, Nat.add_lt_add_left hj _⟩

/-- A tensor that has no byte in common with `ts` keeps its bytes. -/
theorem Untouched.byte (h : Untouched ts m m') (ht : t.User)
    (hts : ∀ u ∈ ts, t.Apart u) {j : Nat} (hj : j < t.nbytes) : t.byte m' j = t.byte m j := by
  obtain ⟨id, hid⟩ := ht
  have hmem := Tensor.byte_mem_span hj
  simp only [Tensor.addr, hid] at hmem
  simp only [Tensor.byte, Tensor.addr, hid]
  exact h id _ fun u hu hu' => hts u hu hmem hu'

theorem Tensor.User.ne_heap (h : t.User) (i : Nat) : t.addr.1 ≠ (heap i).1 := by
  obtain ⟨id, hid⟩ := h
  simp [Tensor.addr, hid, heap]

theorem copy_byte (m : Addr → UInt8) (src : Addr) {j : Nat} (hj : j < t.nbytes) :
    t.byte (copy m t.addr src t.nbytes) j = m (src.1, src.2 + j) :=
  copy_at m _ src hj

theorem copy_untouched (t : Tensor) (m : Addr → UInt8) (src : Addr) :
    Untouched [t] m (copy m t.addr src t.nbytes) :=
  fun _ _ h => copy_frame (h t (by simp))

theorem copy_sameUser {a : Addr} (h : ∀ id, a.1 ≠ .mtl id) (m : Addr → UInt8) (src : Addr)
    (n : Nat) : SameUser m (copy m a src n) :=
  fun id _ => copy_of_ne (Ne.symm (h id))

theorem fill_sameUser {a : Addr} (h : ∀ id, a.1 ≠ .mtl id) (m : Addr → UInt8) (n : Nat) (b : UInt8) :
    SameUser m (fill m a n b) :=
  fun id _ => fill_of_ne (Ne.symm (h id))

/-- The memories of the ranks. -/
def mems (st : Nat → RankState D) (r : Nat) : Addr → UInt8 := (st r).mem

theorem staged_ne_heap {t : Tensor} (h : t.Valid) {sb : StagingBuffer}
    (hsb : sb.data.1 = t.storage ∨ ∃ gen, sb.data.1 = .pool gen) (i : Nat) : sb.data.1 ≠ .host i := by
  obtain ⟨id, hid⟩ := h.user
  rcases hsb with hd | ⟨gen, hd⟩ <;> simp [hd, hid]

/-! ## Checks -/

theorem check_mps_eq (h : t.Ok) (op : String) : (check_mps_ t op : RankProg D Unit) = .ret () := by
  simp [check_mps_, Tensor.is_mps, h.mps, h.contiguous]

theorem check_mps_straight (t : Tensor) (op : String) :
    (check_mps_ t op : RankProg D Unit).Straight :=
  .bind (.check _ _) fun _ => .check _ _

theorem forM_check_mps_eq (h : ∀ t ∈ ts, t.Ok) (op : String) :
    (forM ts (check_mps_ · op) : RankProg D PUnit) = .ret ⟨⟩ := by
  induction ts with
  | nil => rfl
  | cons t ts ih =>
    rw [List.forM_cons, check_mps_eq (h t (by simp))]
    exact ih fun u hu => h u (by simp [hu])

/-! ## Peers -/

theorem mem_peers {rank world p : Nat} : p ∈ peers rank world ↔ p < world ∧ p ≠ rank := by
  simp [peers]

theorem nodup_peers (rank world : Nat) : (peers rank world).Nodup := List.nodup_range.filter _

theorem peers_ne_nil {r w : Nat} (h : 2 ≤ w) : peers r w ≠ [] := by
  by_cases hr : r = 0
  · exact List.ne_nil_of_mem (mem_peers.mpr ⟨h, by omega⟩)
  · exact List.ne_nil_of_mem (mem_peers.mpr ⟨by omega, Ne.symm hr⟩)

/-! ## Receive buffers -/

/-- The store after clearing the receive buffers `l`. -/
def cleared (l : List Nat) (n : Nat → Nat) (s : RankState D) : RankState D :=
  { s with mem := l.foldl (fun m p => fill m (heap p) (n p) 0) s.mem }

theorem cleared_calm (l : List Nat) (n : Nat → Nat) (s : RankState D) : Calm s (cleared l n s) :=
  .of_mem _ _

theorem vectors_computes (l : List Nat) (n : Nat → Nat) (s : RankState D) :
    Computes (forM l fun p => vector p (n p) : RankProg D PUnit) s (cleared l n s) () := by
  induction l generalizing s with
  | nil => exact Computes.ret _ _
  | cons p l ih =>
    rw [List.forM_cons]
    exact (Computes.modify _ s).bind (ih _)

theorem cleared_of_ne (l : List Nat) (n : Nat → Nat) (s : RankState D) {a : Addr}
    (h : ∀ i, a.1 ≠ .host i) : (cleared l n s).mem a = s.mem a := by
  unfold cleared
  induction l generalizing s with
  | nil => rfl
  | cons p l ih =>
    exact (ih { s with mem := fill s.mem (heap p) (n p) 0 }).trans (fill_of_ne (h p))

theorem vectors_straight (l : List Nat) (n : Nat → Nat) :
    (forM l fun p => vector p (n p) : RankProg D PUnit).Straight :=
  .forM fun _ _ => .modify _

/-! ## Staging a list of tensors -/

theorem getD_of_forall₂ {γ : Type} {A : Nat → γ → Prop} {cs : List γ} {n : Nat} (d : γ)
    (h : List.Forall₂ A (List.range n) cs) {p : Nat} (hp : p < n) : A p (cs.getD p d) := by
  have hlen : n = cs.length := by simpa using h.length_eq
  have := h.get (i := p) (by simpa using hp) (hlen ▸ hp)
  rw [List.getD_eq_getElem _ _ (hlen ▸ hp)]
  simpa using this

/-- The tensor has been staged; with shared storage its bytes are in place. -/
def IsStaged (t : Tensor) (sb : StagingBuffer) : Prop :=
  sb.nbytes = t.nbytes ∧ (t.shared = true → sb.data = t.addr)

theorem isStaged (t : Tensor) (s : RankState D) : IsStaged t ⟨stagedAt t s, t.nbytes⟩ :=
  ⟨rfl, fun h => stagedAt_shared h s⟩

/-! ## Copying blocks to their tensors -/

/-- Every block has been copied to its tensor. -/
structure Copied (l : List Nat) (ts : Nat → Tensor) (m m' : Addr → UInt8) : Prop where
  bytes : ∀ p ∈ l, ∀ j < (ts p).nbytes, (ts p).byte m' j = m ((heap p).1, (heap p).2 + j)
  frame : ∀ a, (∀ p ∈ l, a ∉ (ts p).span) → m' a = m a

theorem unstage_all {l : List Nat} (ts : Nat → Tensor) {n : Nat → Nat} (hok : ∀ p ∈ l, (ts p).Ok)
    (hn : ∀ p ∈ l, n p = (ts p).nbytes) (hheap : ∀ p ∈ l, ∀ i, (ts p).storage ≠ .host i)
    (hapart : l.Pairwise fun p q => (ts p).Apart (ts q)) (s : RankState D) :
    ∃ s', Computes (forM l fun p => unstage_from_recv (ts p) (heap p) (n p) :
        RankProg D PUnit) s s' () ∧ Calm s s' ∧
      ((∀ p ∈ l, (ts p).shared = true) → s'.aux = s.aux ∧ Copied l ts s.mem s'.mem) := by
  induction l generalizing s with
  | nil => exact ⟨s, Computes.ret _ _, .refl s, fun _ => ⟨rfl, by simp, fun _ _ => rfl⟩⟩
  | cons p l ih =>
    have hp : (ts p).Ok := hok p (by simp)
    rw [List.pairwise_cons] at hapart
    obtain ⟨s', hrun, hcalm, hcopied⟩ := ih (fun q hq => hok q (by simp [hq]))
      (fun q hq => hn q (by simp [hq])) (fun q hq => hheap q (by simp [hq])) hapart.2 (unstaged (ts p) (heap p) s)
    refine ⟨s', ?_, (unstaged_calm _ _ _).trans hcalm, fun hshared => ?_⟩
    · rw [List.forM_cons]
      exact (unstage_computes hp _ (hn p (by simp)) s).bind hrun
    have hsp : (ts p).shared = true := hshared p (by simp)
    obtain ⟨haux, hbytes, hframe⟩ := hcopied fun q hq => hshared q (by simp [hq])
    rw [unstaged_mem hsp] at hbytes hframe
    refine ⟨haux.trans (unstaged_aux hsp _ _), fun q hq j hj => ?_, fun a ha => ?_⟩
    · rcases List.mem_cons.mp hq with rfl | hq
      · -- The later blocks go elsewhere.
        have hout := hframe _ fun q' hq' => hapart.1 q' hq' (Tensor.byte_mem_span hj)
        exact hout.trans (copy_at _ _ _ hj)
      · rw [hbytes q hq j hj]
        exact copy_of_ne (hheap p (by simp) q).symm
    · rw [hframe a fun q hq => ha q (by simp [hq])]
      exact copy_frame (ha p (by simp))

theorem unstage_all_straight (l : List Nat) (ts : Nat → Tensor) (n : Nat → Nat) :
    (forM l fun p => unstage_from_recv (ts p) (heap p) (n p) : RankProg D PUnit).Straight :=
  .forM fun _ _ => unstage_straight _ _ _

end Mccl
