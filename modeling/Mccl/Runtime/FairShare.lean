import Mathlib.Algebra.Field.Rat
import Mathlib.Algebra.Order.Ring.Rat
import Mccl.Framework.Sorting
import Mccl.Runtime.Scheduler

/-! # The Fair-Share Boost

    `Scheduler::schedule_tick` sorts the queue, then raises the LOW jobs of tenants
    below their fair share to NORMAL, and tries the jobs in the order of the sort.

    * `raise`: what the boost does to a job, for any decision about the tenants.
      `boost` decides with doubles, `fairBoost` with the same numbers as rationals.
    * The raised job keeps its place, behind every NORMAL job and among the LOW
      ones. `considered_in_order_iff`: the order is right, whatever the sort does
      with ties, if and only if every raised job was submitted after the NORMAL
      jobs and before the LOW jobs that are not raised. -/

namespace Mccl.Scheduler

/-! ## Who Is Raised -/

/-- One tier up for a LOW job of a tenant below its share. -/
def raise (below : String → Bool) (job : JobDescriptor) : JobDescriptor :=
  if below job.owner ∧ job.priority = .LOW then { job with priority := .NORMAL } else job

/-- The sum of `total_node_seconds` over the tenants. -/
def totalNodeSeconds (stats : TenantStats) : UInt64 := stats.foldl (fun sum tenant => sum + tenant.2) 0

/-- The test for the boost on doubles. -/
def belowShare (stats : TenantStats) (owner : String) : Bool :=
  totalNodeSeconds stats > 0 && (stats.lookup owner).any fun seconds =>
    seconds.toFloat / (max (totalNodeSeconds stats) 1).toFloat < 1.0 / (max stats.length 1).toFloat

/-- The same test with the shares as rationals. -/
def belowFairShare (stats : TenantStats) (owner : String) : Bool :=
  totalNodeSeconds stats > 0 && (stats.lookup owner).any fun seconds =>
    (seconds.toNat : ℚ) / (max (totalNodeSeconds stats) 1).toNat < 1 / (max stats.length 1 : Nat)

theorem boost_eq_raise (stats : TenantStats) : boost stats = raise (belowShare stats) := by
  funext job
  unfold boost raise belowShare totalNodeSeconds
  dsimp only
  by_cases htotal : stats.foldl (fun sum tenant => sum + tenant.2) 0 > 0
  · cases hlookup : stats.lookup job.owner with
    | none => simp [htotal]
    | some seconds =>
      simp only [htotal, if_true, decide_true, Bool.true_and, Option.any_some, decide_eq_true_eq]
      exact (ite_and ..).symm
  · simp [htotal]

/-- The fair-share boost with exact shares. -/
def fairBoost (stats : TenantStats) : JobDescriptor → JobDescriptor := raise (belowFairShare stats)

/-! ## The Order of the Tick -/

/-- `a` may be tried before `b`: not of lower priority, and among jobs of one
    priority not submitted later. -/
def InOrder (a b : JobDescriptor) : Prop :=
  b.priority.value ≤ a.priority.value ∧ (a.priority = b.priority → a.submitted_at_us ≤ b.submitted_at_us)

/-- The sort may leave `a` before `b`. -/
def mayPrecede (a b : JobDescriptor) : Bool := !comesBefore b a

theorem priority_inj {p q : JobPriority} (h : p.value = q.value) : p = q := by
  cases p <;> cases q <;> first | rfl | cases h

theorem mayPrecede_iff {a b : JobDescriptor} : mayPrecede a b = true ↔ InOrder a b := by
  unfold mayPrecede InOrder comesBefore
  by_cases h : b.priority = a.priority
  · simp [h]
  · have hne : b.priority.value ≠ a.priority.value := fun heq => h (priority_inj heq)
    simp [h, Ne.symm h]

theorem InOrder.trans {a b c : JobDescriptor} (hab : InOrder a b) (hbc : InOrder b c) : InOrder a c := by
  refine ⟨Nat.le_trans hbc.1 hab.1, fun heq => ?_⟩
  -- equal ends leave no room for another priority between them
  have hb : a.priority = b.priority := by
    apply priority_inj
    have hle := hab.1
    have hle' := hbc.1
    rw [heq] at hle ⊢
    exact Nat.le_antisymm hle' hle
  exact UInt64.le_trans (hab.2 hb) (hbc.2 (hb ▸ heq))

theorem inOrder_total (a b : JobDescriptor) : InOrder a b ∨ InOrder b a := by
  unfold InOrder
  by_cases heq : a.priority = b.priority
  · rcases UInt64.le_total a.submitted_at_us b.submitted_at_us with h | h
    · exact .inl ⟨by rw [heq], fun _ => h⟩
    · exact .inr ⟨by rw [heq], fun _ => h⟩
  · rcases Nat.le_total b.priority.value a.priority.value with h | h
    · exact .inl ⟨h, fun h' => absurd h' heq⟩
    · exact .inr ⟨h, fun h' => absurd h'.symm heq⟩

theorem sortOf_iff {queue order : List JobDescriptor} : SortOf queue order ↔ Sorting.Sorted mayPrecede queue order := by
  simp [SortOf, Sorting.Sorted, mayPrecede]

/-! ## Raised Jobs -/

section Raise

variable {below : String → Bool} {a b job : JobDescriptor}

/-- The boost changes the priority of the job. -/
def Raised (below : String → Bool) (job : JobDescriptor) : Prop := below job.owner = true ∧ job.priority = .LOW

theorem raise_of_raised (h : Raised below job) : raise below job = { job with priority := .NORMAL } := if_pos h

theorem raise_of_not_raised (h : ¬Raised below job) : raise below job = job := if_neg h

/-- Two jobs that the sort has left in this order are still in order after the
    boost, unless the second is raised past the first. -/
theorem inOrder_raise_iff (hab : InOrder a b) : InOrder (raise below a) (raise below b) ↔
    (Raised below b → ¬Raised below a →
      a.priority ≠ .LOW ∧ (a.priority = .NORMAL → a.submitted_at_us ≤ b.submitted_at_us)) := by
  by_cases hb : Raised below b
  · rw [raise_of_raised hb]
    by_cases ha : Raised below a
    · -- both are raised and keep the order of their times
      rw [raise_of_raised ha]
      have htime := hab.2 (ha.2.trans hb.2.symm)
      exact iff_of_true ⟨Nat.le_refl _, fun _ => htime⟩ fun _ hna => absurd ha hna
    · rw [raise_of_not_raised ha]
      unfold InOrder
      cases hpriority : a.priority <;> simp [hb, ha, JobPriority.value]
  · refine iff_of_true ?_ fun hb' => absurd hb' hb
    rw [raise_of_not_raised hb]
    by_cases ha : Raised below a
    · rw [raise_of_raised ha]
      have hle := hab.1
      rw [ha.2] at hle
      -- the first job passes the second, which is LOW as well
      refine ⟨Nat.le_trans hle (Nat.zero_le 1), fun heq => ?_⟩
      rw [← heq] at hle
      exact absurd hle (Nat.not_succ_le_zero 0)
    · rw [raise_of_not_raised ha]
      exact hab

/-- A raised job was submitted after every NORMAL job, and before every LOW job
    that is not raised. -/
def KeepsPlace (below : String → Bool) (queue : List JobDescriptor) : Prop :=
  ∀ b ∈ queue, Raised below b → ∀ j ∈ queue,
    (j.priority = .NORMAL → j.submitted_at_us ≤ b.submitted_at_us) ∧
    (j.priority = .LOW → ¬Raised below j → b.submitted_at_us < j.submitted_at_us)

theorem raise_in_order_iff (below : String → Bool) (queue : List JobDescriptor) :
    (∀ order, SortOf queue order → (order.map (raise below)).Pairwise InOrder) ↔ KeepsPlace below queue := by
  simp only [sortOf_iff]
  rw [Sorting.forall_sorted_map_iff (fun a b c hab hbc => ?_) fun a b => ?_]
  rotate_left
  · exact mayPrecede_iff.mpr ((mayPrecede_iff.mp hab).trans (mayPrecede_iff.mp hbc))
  · rw [Bool.or_eq_true, mayPrecede_iff, mayPrecede_iff]
    exact inOrder_total a b
  simp only [mayPrecede_iff]
  constructor
  · intro h b hb hraised j hj
    -- two different jobs of the queue, the raised one behind
    have hpair : j ≠ b → InOrder j b → ¬Raised below j →
        j.priority ≠ .LOW ∧ (j.priority = .NORMAL → j.submitted_at_us ≤ b.submitted_at_us) := by
      intro hne horder hj'
      have hsub : [j, b].Subperm queue := by
        apply List.Nodup.subperm
        · simpa using hne
        · intro k hk
          rcases List.mem_pair.mp hk with rfl | rfl
          · exact hj
          · exact hb
      exact (inOrder_raise_iff horder).mp (h j b hsub horder) hraised hj'
    constructor
    · intro hnormal
      have hne : j ≠ b := by
        intro heq
        rw [heq, hraised.2] at hnormal
        cases hnormal
      have horder : InOrder j b := by
        unfold InOrder
        rw [hnormal, hraised.2]
        exact ⟨by decide, fun heq => by cases heq⟩
      refine (hpair hne horder fun hj' => ?_).2 hnormal
      rw [hj'.2] at hnormal
      cases hnormal
    · intro hlow hj'
      by_contra hlate
      have hne : j ≠ b := fun heq => hj' (heq ▸ hraised)
      have horder : InOrder j b := by
        unfold InOrder
        rw [hlow, hraised.2]
        exact ⟨Nat.le_refl _, fun _ => UInt64.not_lt.mp hlate⟩
      exact (hpair hne horder hj').1 hlow
  · intro h a b hsub hab
    apply (inOrder_raise_iff hab).mpr
    intro hb ha
    obtain ⟨hnormal, hlow⟩ := h b (hsub.subset (by simp)) hb a (hsub.subset (by simp))
    refine ⟨fun hl => ?_, hnormal⟩
    have hle := hab.2 (hl.trans hb.2.symm)
    exact absurd (hlow hl ha) (UInt64.not_lt.mpr hle)

end Raise

/-- **Jobs are considered in the order of their boosted priorities** under every
    sort of the queue if and only if the raised jobs keep their place. -/
theorem considered_in_order_iff (stats : TenantStats) (queue : List JobDescriptor) :
    (∀ order, SortOf queue order → (order.map (fairBoost stats)).Pairwise InOrder) ↔
      KeepsPlace (belowFairShare stats) queue :=
  raise_in_order_iff (belowFairShare stats) queue

/-- With the doubles of the tick, for the tenants that these put below their share. -/
theorem boosted_in_order_iff (stats : TenantStats) (queue : List JobDescriptor) :
    (∀ order, SortOf queue order → (order.map (boost stats)).Pairwise InOrder) ↔
      KeepsPlace (belowShare stats) queue := by
  rw [boost_eq_raise]
  exact raise_in_order_iff (belowShare stats) queue

/-- The tenant `a` has used nine of ten node seconds, the tenant `b` one. -/
def unequalStats : TenantStats := [("a", 9), ("b", 1)]

/-- Two LOW jobs, that of the tenant `b` one microsecond later. -/
def lowJobs : List JobDescriptor :=
  [{ owner := "a", priority := .LOW, submitted_at_us := 1 }, { owner := "b", priority := .LOW, submitted_at_us := 2 }]

/-- The LOW job of `a` is tried before the job of `b`, which has been raised to
    NORMAL. -/
theorem low_before_raised : SortOf lowJobs lowJobs ∧
    (lowJobs.map (fairBoost unequalStats)).map (fun j => (j.owner, j.priority)) = [("a", .LOW), ("b", .NORMAL)] ∧
    ¬(lowJobs.map (fairBoost unequalStats)).Pairwise InOrder := by
  have hraise : lowJobs.map (fairBoost unequalStats) =
      [{ owner := "a", priority := .LOW, submitted_at_us := 1 },
        { owner := "b", priority := .NORMAL, submitted_at_us := 2 }] := by
    decide +kernel
  refine ⟨⟨.refl _, by decide⟩, by rw [hraise]; rfl, ?_⟩
  rw [hraise]
  intro h
  exact absurd (List.pairwise_pair.mp h).1 (by decide)

end Mccl.Scheduler
