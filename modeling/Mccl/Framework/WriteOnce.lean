import Mathlib.Data.List.Basic

/-! # Cells that Are Written Once

    The histories of a cell that is written at most once and looked at in any number
    of ways. An implementation is correct if what it logs is such a history.

    * `Run`: the histories, by their last event.
    * `Run.split`: what is seen before the write is right of the empty cell, what is
      seen after it is right of what was written, and there is no second write. -/

namespace WriteOnce

/-- The cell is written, or something is seen of it. -/
inductive Event (α β : Type) where
  | write (a : α)
  | see (b : β)

variable {α β : Type}

/-- The histories, with what the cell holds at the end. An observation is right of
    what the cell holds, or not. -/
inductive Run (Right : Option α → β → Prop) : List (Event α β) → Option α → Prop where
  | nil : Run Right [] none
  | write {l : List (Event α β)} (h : Run Right l none) (a : α) : Run Right (l ++ [.write a]) (some a)
  | see {l : List (Event α β)} {c : Option α} (h : Run Right l c) {b : β} (hb : Right c b) :
      Run Right (l ++ [.see b]) c

/-- Only observations, all right of `c`. -/
def Sees (Right : Option α → β → Prop) (c : Option α) (l : List (Event α β)) : Prop :=
  ∀ ev ∈ l, ∃ b, ev = .see b ∧ Right c b

variable {Right : Option α → β → Prop} {l before after : List (Event α β)} {c : Option α} {a : α}

theorem Sees.append_see {b : β} (h : Sees Right c l) (hb : Right c b) : Sees Right c (l ++ [.see b]) := by
  intro ev hev
  rcases List.mem_append.mp hev with hev | hev
  · exact h ev hev
  · exact ⟨b, List.mem_singleton.mp hev, hb⟩

/-- An empty cell has not been written. -/
theorem Run.sees (h : Run Right l c) (hc : c = none) : Sees Right none l := by
  induction h with
  | nil => nofun
  | write h a ih => cases hc
  | see h hb ih =>
    subst hc
    exact (ih rfl).append_see hb

theorem Run.exists_write (h : Run Right l c) (hc : c = some a) :
    ∃ before after, l = before ++ .write a :: after ∧ Sees Right none before ∧ Sees Right (some a) after := by
  induction h with
  | nil => cases hc
  | write h a' ih =>
    cases hc
    exact ⟨_, [], rfl, h.sees rfl, nofun⟩
  | see h hb ih =>
    subst hc
    obtain ⟨before, after, rfl, hbefore, hafter⟩ := ih rfl
    exact ⟨before, after ++ [.see _], by simp, hbefore, hafter.append_see hb⟩

/-- **One write**: it separates what is seen of the empty cell from what is seen of its
    contents. -/
theorem Run.split (h : Run Right l c) (hl : l = before ++ .write a :: after) :
    c = some a ∧ Sees Right none before ∧ Sees Right (some a) after := by
  cases c with
  | none =>
    obtain ⟨b, hb, -⟩ := h.sees rfl (.write a) (by simp [hl])
    cases hb
  | some a' =>
    obtain ⟨before', after', hl', hbefore, hafter⟩ := h.exists_write rfl
    -- a write on either side of the other would be an observation
    have heq : before ++ .write a :: after = before' ++ .write a' :: after' := hl.symm.trans hl'
    rcases List.append_eq_append_iff.mp heq with ⟨mid, rfl, hmid⟩ | ⟨mid, rfl, hmid⟩
    · cases mid with
      | nil =>
        rw [List.nil_append] at hmid
        cases hmid
        rw [List.append_nil] at hbefore
        exact ⟨rfl, hbefore, hafter⟩
      | cons ev mid =>
        obtain ⟨rfl, -⟩ := List.cons.inj hmid
        obtain ⟨b, hb, -⟩ := hbefore (.write a) (by simp)
        cases hb
    · cases mid with
      | nil =>
        rw [List.nil_append] at hmid
        cases hmid
        rw [List.append_nil]
        exact ⟨rfl, hbefore, hafter⟩
      | cons ev mid =>
        obtain ⟨-, rfl⟩ := List.cons.inj hmid
        obtain ⟨b, hb, -⟩ := hafter (.write a) (by simp)
        cases hb

end WriteOnce
