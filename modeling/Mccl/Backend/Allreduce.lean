import Mccl.Backend.AllreduceButterfly
import Mccl.Backend.AllreduceRing
import Mccl.Backend.AllreduceTree

/-! # Allreduce

    The choice of the algorithm in `ProcessGroupMCCL::allreduce`, and what all
    three algorithms have in common. Neither result needs any algebra.

    * `allreduce_agreement`: all ranks end with the same tensor, since every
      element is reduced on one rank and only copied afterwards.
    * `allreduce_deadlock_free`: no run is stuck, however small the sockets'
      buffers are. -/

namespace Mccl

open ForkJoin Arrays Reduction

inductive AllreduceAlgo where
  | ring | tree | butterfly
  deriving DecidableEq, Repr

namespace AllreduceAlgo

variable {β : Type} {D : Device β} {ω : Type}

def run : AllreduceAlgo → AllreduceArgs → RedOpType → Nat → Nat → Prog D ω Unit
  | ring => allreduce_ring
  | tree => allreduce_tree
  | butterfly => allreduce_butterfly

/-- What the algorithm requires of the arguments. -/
def Admits : AllreduceAlgo → AllreduceGroup → Prop
  | ring, G => G.world ≤ G.numel
  | tree, _ => True
  | butterfly, G => G.world ≤ G.numel ∧ G.ScratchFits

end AllreduceAlgo

/-! ## The choice of the algorithm -/

/-- The algorithm for a tensor: `env_alg` is `MCCL_ALLREDUCE_ALGO`, and
    `tree_below` is `MCCL_TREE_BELOW` or 256 KiB. -/
def allreduce_algo (env_alg : Option String) (tree_below bytes numel world : Nat) :
    AllreduceAlgo :=
  let alg := env_alg.getD "auto"
  let alg := if alg = "auto" then (if bytes ≤ tree_below then "tree" else "ring") else alg
  let alg := if alg = "ring" ∧ numel < world then "tree" else alg
  let alg := if alg = "butterfly" ∧ (world < 2 ∨ numel < world) then "tree" else alg
  if alg = "ring" then .ring else if alg = "butterfly" then .butterfly else .tree

/-- The number of elements of the scratch that is allocated for it. -/
def scratch_numel (numel world : Nat) : AllreduceAlgo → Nat
  | .ring => per_chunk numel world
  | .butterfly => (world - 1) * per_chunk numel world
  | .tree => numel

theorem chunk_count_le (G : AllreduceGroup) (c : Nat) :
    (G.chunk c).elem_count ≤ per_chunk G.numel G.world := by
  have h := Nat.succ_mul c (per_chunk G.numel G.world)
  simp only [AllreduceGroup.chunk, chunkize, Nat.succ_eq_add_one] at *
  omega

/-- With fewer elements than ranks only the tree is chosen. -/
theorem allreduce_algo_of_lt (env_alg : Option String) (tree_below bytes : Nat)
    {numel world : Nat} (h : numel < world) :
    allreduce_algo env_alg tree_below bytes numel world = .tree := by
  simp only [allreduce_algo, h, and_true, or_true]
  generalize (if env_alg.getD "auto" = "auto" then if bytes ≤ tree_below then "tree" else "ring"
    else env_alg.getD "auto") = alg
  by_cases hring : alg = "ring"
  · simp [hring]
  · by_cases hbutterfly : alg = "butterfly"
    · simp [hbutterfly]
    · simp [hring, hbutterfly]

/-- The algorithm that is chosen admits the arguments that are prepared for it. -/
theorem allreduce_algo_admits (G : AllreduceGroup) (env_alg : Option String)
    (tree_below bytes : Nat) (hscratch : ∀ r < G.world, (G.args r).recv_view.nbytes =
      scratch_numel G.numel G.world (allreduce_algo env_alg tree_below bytes G.numel G.world) *
        G.dtype.elementSize) :
    (allreduce_algo env_alg tree_below bytes G.numel G.world).Admits G := by
  cases halg : allreduce_algo env_alg tree_below bytes G.numel G.world with
  | tree => trivial
  | ring =>
    refine Nat.le_of_not_lt fun hlt => ?_
    rw [allreduce_algo_of_lt _ _ _ hlt] at halg
    cases halg
  | butterfly =>
    refine ⟨Nat.le_of_not_lt fun hlt => ?_, fun r hr => ?_⟩
    · rw [allreduce_algo_of_lt _ _ _ hlt] at halg
      cases halg
    · rw [hscratch r hr, halg, scratch_numel, AllreduceGroup.chunk_byte_len, ← Nat.mul_assoc]
      exact Nat.mul_le_mul_right _ (Nat.mul_le_mul_left _ (chunk_count_le G r))

namespace AllreduceGroup

variable {β : Type} {D : Device β} {ω : Type} {f : Format} {k : BinaryOp} {cap : ℕ∞}
  {G : AllreduceGroup}

/-- Every algorithm leaves the same values on all ranks, which combine the
    inputs of all ranks. -/
theorem allreduce_combines (alg : AllreduceAlgo) (hcap : 0 < cap) (hw : 2 ≤ G.world)
    (hadm : alg.Admits G) (x : Nat → Nat → D.F f) :
    ∃ y : Nat → D.F f,
      (∀ i < G.numel, Combines (D.apply k f) (fun q => x q i) G.ranks (y i)) ∧
      Triple cap G.ranks (G.Holds f k x (ω := ω)) (fun r => alg.run (G.args r) G.op r G.world)
        (G.Holds f k fun _ i => G.scaled D f (y i)) := by
  cases alg with
  | ring =>
    refine ⟨_, fun i hi => ?_, allreduce_ring_triple hcap hw hadm x⟩
    exact ringFold_combines_all (owner_lt (by omega) hi)
  | tree =>
    refine ⟨_, fun i _ => ?_, allreduce_tree_triple hcap hw x⟩
    exact treeReduced_combines_all (by omega) (Nat.le_pow_clog one_lt_two _)
  | butterfly =>
    refine ⟨_, fun i hi => ?_, (allreduce_butterfly_triple hcap hw hadm.1 hadm.2 x).conseq
      (fun _ h => h) fun _ h => h.1⟩
    exact butterflyFold_combines_all (owner_lt (by omega) hi)

theorem allreduce_triple (alg : AllreduceAlgo) (hcap : 0 < cap) (hw : 2 ≤ G.world)
    (hadm : alg.Admits G) (x : Nat → Nat → D.F f) :
    ∃ y : Nat → D.F f, Triple cap G.ranks (G.Holds f k x (ω := ω))
      (fun r => alg.run (G.args r) G.op r G.world) (G.Holds f k fun _ i => y i) := by
  obtain ⟨y, -, htriple⟩ := allreduce_combines (k := k) (ω := ω) alg hcap hw hadm x
  exact ⟨_, htriple⟩

/-- **Agreement.** Whatever the operations of the device compute, all ranks
    end with the same tensor. -/
theorem allreduce_agreement (G : AllreduceGroup) (alg : AllreduceAlgo) (hw : 2 ≤ G.world)
    (hadm : alg.Admits G) (hcap : 0 < cap) {st : Nat → RankStore D ω} (hst : G.Ready f k st)
    {s : Net Nat Addr β (Local D ω)} (hs : Reaches cap (G.initial alg.run st) s)
    (hfin : s.Finished) :
    ∀ r < G.world, ∀ q < G.world, ∀ i < G.numel,
      G.tensor f (stores s) r i = G.tensor f (stores s) q i := by
  obtain ⟨y, htriple⟩ := allreduce_triple (k := k) (ω := ω) alg hcap hw hadm (G.tensor f st)
  obtain ⟨hholds, -⟩ := finished_run htriple hst hs hfin
  intro r hr q hq i hi
  rw [hholds.tensor_eq r hr i hi, hholds.tensor_eq q hq i hi]

theorem allreduce_agreement_small :
    ∃ s : Net Nat Addr Nat (Local natDevice Unit),
      Reaches 1 ((smallGroup .SUM).initial AllreduceAlgo.tree.run smallStores) s ∧ s.Finished ∧
        ∀ r < 3, ∀ q < 3, ∀ i < 4, (smallGroup .SUM).tensor .f32 (stores s) r i =
          (smallGroup .SUM).tensor .f32 (stores s) q i := by
  obtain ⟨st', -, hout⟩ := (allreduce_tree_triple (k := .add) (G := smallGroup .SUM) one_pos
    (by decide) _).outcome ⟨smallGroup_ready, fun _ _ _ _ => rfl⟩
  exact ⟨done st', hout.reaches .refl, done_finished st',
    allreduce_agreement (smallGroup .SUM) .tree (by decide) trivial one_pos smallGroup_ready
      (hout.reaches .refl) (done_finished st')⟩

/-- **Deadlock freedom.** With sockets that buffer at least one byte, a run
    of all ranks can always be continued until every rank has finished. -/
theorem allreduce_deadlock_free (G : AllreduceGroup) (alg : AllreduceAlgo) (hw : 2 ≤ G.world)
    (hadm : alg.Admits G) (hcap : 0 < cap) {st : Nat → RankStore D ω} (hst : G.Ready f k st)
    {s : Net Nat Addr β (Local D ω)} (hs : Reaches cap (G.initial alg.run st) s)
    (hfin : ¬ s.Finished) : ∃ s', Step cap s s' := by
  obtain ⟨y, htriple⟩ := allreduce_triple (k := k) (ω := ω) alg hcap hw hadm (G.tensor f st)
  obtain ⟨st', -, hout⟩ := htriple.outcome ⟨hst, fun _ _ _ _ => rfl⟩
  exact hout.progress hs hfin

theorem allreduce_deadlock_free_small :
    ∃ s', Step 1 ((smallGroup .SUM).initial AllreduceAlgo.ring.run smallStores) s' := by
  refine allreduce_deadlock_free (smallGroup .SUM) .ring (by decide)
    (show (smallGroup .SUM).world ≤ (smallGroup .SUM).numel by decide) one_pos smallGroup_ready
    .refl fun hfin => ?_
  exact hfin 0

end AllreduceGroup

end Mccl
