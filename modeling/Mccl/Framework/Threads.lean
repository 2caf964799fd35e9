import Mathlib.Algebra.Order.BigOperators.Group.Finset
import Mccl.Framework.System

/-! # Threads over Shared Memory

    Threads with registers of their own run straight-line programs over one
    memory. A program is a list of accesses, each of which reads and writes
    at one address, and the threads interleave access by access.

    * `alone`: what a program does when no other thread runs.
    * `system_ends`: if no two threads access the same address, then every
      interleaving ends with the memory that each thread would have computed
      alone, at the addresses it accesses, and with the initial memory
      everywhere else. -/

namespace Threads

variable {ι α ρ : Type}

/-- An access to the memory at one address: what happens to the registers
    and to the value there. -/
structure Access (ι α ρ : Type) where
  addr : ι
  act : ρ → α → ρ × α

/-- A thread: its registers and the accesses it has yet to make. -/
structure Thread (ι α ρ : Type) where
  regs : ρ
  todo : List (Access ι α ρ)

structure State (ι α ρ : Type) where
  mem : ι → α
  thread : Nat → Thread ι α ρ

variable [DecidableEq ι]

/-! ## One thread alone -/

/-- Memory and registers after the accesses, with nothing in between. -/
def alone (m : ι → α) (r : ρ) : List (Access ι α ρ) → (ι → α) × ρ
  | [] => (m, r)
  | a :: as =>
    let (r', x) := a.act r (m a.addr)
    alone (Function.update m a.addr x) r' as

theorem alone_append (m : ι → α) (r : ρ) (as bs : List (Access ι α ρ)) :
    alone m r (as ++ bs) = alone (alone m r as).1 (alone m r as).2 bs := by
  induction as generalizing m r with
  | nil => rfl
  | cons a as ih => exact ih _ _

theorem alone_congr {m m' : ι → α} {r : ρ} {as : List (Access ι α ρ)} {S : ι → Prop}
    (hS : ∀ a ∈ as, S a.addr) (hm : ∀ x, S x → m x = m' x) :
    (alone m r as).2 = (alone m' r as).2 ∧ ∀ x, S x → (alone m r as).1 x = (alone m' r as).1 x := by
  induction as generalizing m m' r with
  | nil => exact ⟨rfl, hm⟩
  | cons a as ih =>
    have ha : m a.addr = m' a.addr := hm _ (hS a List.mem_cons_self)
    unfold alone
    rw [ha]
    apply ih (fun b hb => hS b (List.mem_cons_of_mem _ hb))
    intro x hx
    -- both memories get the same value at `a.addr`
    by_cases hxa : x = a.addr
    · rw [hxa, Function.update_self, Function.update_self]
    · rw [Function.update_of_ne hxa, Function.update_of_ne hxa, hm x hx]

/-- Elsewhere the memory stays as it is. -/
theorem alone_frame {m : ι → α} {r : ρ} {as : List (Access ι α ρ)} {x : ι}
    (h : ∀ a ∈ as, a.addr ≠ x) : (alone m r as).1 x = m x := by
  induction as generalizing m r with
  | nil => rfl
  | cons a as ih =>
    unfold alone
    rw [ih fun b hb => h b (List.mem_cons_of_mem _ hb)]
    exact Function.update_of_ne (h a List.mem_cons_self).symm _ _

/-! ## Interleavings -/

/-- Thread `t` has made the access `a` and is left with `as`. -/
def State.exec (s : State ι α ρ) (t : Nat) (a : Access ι α ρ) (as : List (Access ι α ρ)) :
    State ι α ρ where
  mem := Function.update s.mem a.addr (a.act (s.thread t).regs (s.mem a.addr)).2
  thread := Function.update s.thread t ⟨(a.act (s.thread t).regs (s.mem a.addr)).1, as⟩

theorem exec_thread_self (s : State ι α ρ) (t : Nat) (a : Access ι α ρ) (as : List (Access ι α ρ)) :
    (s.exec t a as).thread t = ⟨(a.act (s.thread t).regs (s.mem a.addr)).1, as⟩ :=
  Function.update_self _ _ _

theorem exec_thread_of_ne {s : State ι α ρ} {t u : Nat} (h : u ≠ t) (a : Access ι α ρ)
    (as : List (Access ι α ρ)) : (s.exec t a as).thread u = s.thread u :=
  Function.update_of_ne h _ _

theorem exec_mem_of_ne {s : State ι α ρ} {x : ι} {a : Access ι α ρ} (h : x ≠ a.addr) (t : Nat)
    (as : List (Access ι α ρ)) : (s.exec t a as).mem x = s.mem x :=
  Function.update_of_ne h _ _

section system

variable (n : Nat) (prog : Nat → List (Access ι α ρ)) (r₀ : ρ) (m₀ : ι → α)

/-- The threads `0`, ..., `n - 1`, in any order. -/
def system : System (State ι α ρ) Nat where
  init s := s = ⟨m₀, fun t => ⟨r₀, prog t⟩⟩
  step s t s' := t < n ∧ ∃ a as, (s.thread t).todo = a :: as ∧ s' = s.exec t a as

/-- No address is accessed by two threads. -/
def Disjoint : Prop :=
  ∀ t < n, ∀ u < n, t ≠ u → ∀ a ∈ prog t, ∀ b ∈ prog u, a.addr ≠ b.addr

/-- What holds along every interleaving. -/
structure Inv (s : State ι α ρ) : Prop where
  /-- A thread has no accesses but those of its program. -/
  todo : ∀ t < n, ∀ a ∈ (s.thread t).todo, a ∈ prog t
  /-- Running the rest of a thread alone gives what the whole of it gives alone. -/
  rest : ∀ t < n, ∀ a ∈ prog t,
    (alone s.mem (s.thread t).regs (s.thread t).todo).1 a.addr = (alone m₀ r₀ (prog t)).1 a.addr
  frame : ∀ x, (∀ t < n, ∀ a ∈ prog t, a.addr ≠ x) → s.mem x = m₀ x

/-- The memory that every interleaving ends with. -/
structure Result (s : State ι α ρ) : Prop where
  accessed : ∀ t < n, ∀ a ∈ prog t, s.mem a.addr = (alone m₀ r₀ (prog t)).1 a.addr
  frame : ∀ x, (∀ t < n, ∀ a ∈ prog t, a.addr ≠ x) → s.mem x = m₀ x

variable {n prog r₀ m₀} {s s' : State ι α ρ}

theorem Inv.init (h : (system n prog r₀ m₀).init s) : Inv n prog r₀ m₀ s := by
  have hs : s = ⟨m₀, fun t => ⟨r₀, prog t⟩⟩ := h
  subst hs
  exact ⟨fun _ _ _ ha => ha, fun _ _ _ _ => rfl, fun _ _ => rfl⟩

theorem Inv.step {t : Nat} (hd : Disjoint n prog) (h : Inv n prog r₀ m₀ s)
    (hs : (system n prog r₀ m₀).step s t s') : Inv n prog r₀ m₀ s' := by
  obtain ⟨ht, a, as, htodo, rfl⟩ := hs
  have ha : a ∈ prog t := h.todo t ht a (htodo ▸ List.mem_cons_self)
  refine ⟨?_, ?_, ?_⟩
  · intro u hu b hb
    by_cases hut : u = t
    · subst hut
      rw [exec_thread_self] at hb
      exact h.todo u hu b (htodo ▸ List.mem_cons_of_mem _ hb)
    · rw [exec_thread_of_ne hut] at hb
      exact h.todo u hu b hb
  · intro u hu b hb
    by_cases hut : u = t
    · -- the thread that moved: one access of `alone` has been done
      subst hut
      have hrest := h.rest u hu b hb
      rw [htodo] at hrest
      rw [exec_thread_self]
      exact hrest
    · -- any other thread: nothing that it accesses has changed
      rw [exec_thread_of_ne hut, ← h.rest u hu b hb]
      apply (alone_congr (S := fun x => ∃ b ∈ prog u, b.addr = x) _ _).2 _ ⟨b, hb, rfl⟩
      · intro c hc
        exact ⟨c, h.todo u hu c hc, rfl⟩
      · intro x hx
        obtain ⟨c, hc, rfl⟩ := hx
        exact exec_mem_of_ne (hd u hu t ht hut c hc a ha) t as
  · intro x hx
    rw [exec_mem_of_ne (hx t ht a ha).symm]
    exact h.frame x hx

theorem Inv.result (h : Inv n prog r₀ m₀ s) (hdone : ∀ t < n, (s.thread t).todo = []) :
    Result n prog r₀ m₀ s := by
  refine ⟨?_, h.frame⟩
  intro t ht a ha
  have hrest := h.rest t ht a ha
  rw [hdone t ht] at hrest
  exact hrest

/-- At an address that no other thread accesses, the memory is the one that
    the thread computes alone. -/
theorem Result.own {t : Nat} {x : ι} (h : Result n prog r₀ m₀ s) (ht : t < n)
    (hx : ∀ u < n, u ≠ t → ∀ a ∈ prog u, a.addr ≠ x) : s.mem x = (alone m₀ r₀ (prog t)).1 x := by
  by_cases ha : ∃ a ∈ prog t, a.addr = x
  · obtain ⟨a, ha, rfl⟩ := ha
    exact h.accessed t ht a ha
  · -- not accessed at all
    have hne : ∀ a ∈ prog t, a.addr ≠ x := fun a hat hax => ha ⟨a, hat, hax⟩
    rw [alone_frame hne]
    apply h.frame x
    intro u hu
    by_cases hut : u = t
    · rwa [hut]
    · exact hx u hu hut

/-- The number of accesses that are still to be made. -/
def remaining (n : Nat) (s : State ι α ρ) : Nat := ∑ t ∈ Finset.range n, (s.thread t).todo.length

theorem remaining_lt {t : Nat} (hs : (system n prog r₀ m₀).step s t s') :
    remaining n s' < remaining n s := by
  obtain ⟨ht, a, as, htodo, rfl⟩ := hs
  apply Finset.sum_lt_sum
  · intro u _
    by_cases hut : u = t
    · subst hut
      rw [exec_thread_self, htodo]
      exact Nat.le_succ _
    · rw [exec_thread_of_ne hut]
  · refine ⟨t, Finset.mem_range.mpr ht, ?_⟩
    rw [exec_thread_self, htodo]
    exact Nat.lt_succ_self _

theorem done_of_no_step (h : ∀ t s', ¬(system n prog r₀ m₀).step s t s') :
    ∀ t < n, (s.thread t).todo = [] := by
  intro t ht
  cases htodo : (s.thread t).todo with
  | nil => rfl
  | cons a as => exact absurd ⟨ht, a, as, htodo, rfl⟩ (h t (s.exec t a as))

/-- **Independent threads**: every interleaving ends, and the memory is the
    one that the threads compute each for itself. -/
theorem system_ends (hd : Disjoint n prog) (h : (system n prog r₀ m₀).init s) :
    (system n prog r₀ m₀).Ends (Result n prog r₀ m₀) s := by
  apply System.Ends.of_measure (I := Inv n prog r₀ m₀) (remaining n)
  · intro s t s' hinv hs
    exact hinv.step hd hs
  · intro s t s' _ hs
    exact remaining_lt hs
  · intro s hinv hstuck
    exact hinv.result (done_of_no_step hstuck)
  · exact Inv.init h

end system

end Threads
