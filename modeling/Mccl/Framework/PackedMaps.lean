import Mathlib.Data.Set.Function

/-! # Maps with Packed Keys

    A map from addresses to values that is kept under keys, where the key of an
    address may leave a part of it out.

    * `exact`, `packed`: one update of the map by address, and of the map by key.
    * `packed_run`: as long as the addresses in use have different keys, the map by
      key answers as the map by address.
    * `packed_collision`: two addresses with one key are confused by the first
      update that puts something in. -/

namespace PackedMaps

/-- A change of the value at an address. -/
structure Update (α V : Type) where
  addr : α
  change : Option V → Option V

variable {α η V : Type} [DecidableEq α] [DecidableEq η]

def exact (m : α → Option V) (u : Update α V) : α → Option V :=
  Function.update m u.addr (u.change (m u.addr))

def packed (key : α → η) (m : η → Option V) (u : Update α V) : η → Option V :=
  Function.update m (key u.addr) (u.change (m (key u.addr)))

variable {key : α → η} {P : Set α}

theorem packed_step (hinj : Set.InjOn key P) {m : α → Option V} {k : η → Option V}
    (h : ∀ p ∈ P, k (key p) = m p) {u : Update α V} (hu : u.addr ∈ P) :
    ∀ p ∈ P, packed key k u (key p) = exact m u p := by
  intro p hp
  unfold packed exact
  by_cases heq : p = u.addr
  · subst heq
    rw [Function.update_self, Function.update_self, h _ hp]
  · have hkey : key p ≠ key u.addr := fun hk => heq (hinj hp hu hk)
    rw [Function.update_of_ne hkey, Function.update_of_ne heq, h p hp]

/-- **Packed maps** answer as exact ones after any updates at addresses whose keys
    differ. -/
theorem packed_run (hinj : Set.InjOn key P) {us : List (Update α V)} (hus : ∀ u ∈ us, u.addr ∈ P)
    {m : α → Option V} {k : η → Option V} (h : ∀ p ∈ P, k (key p) = m p) :
    ∀ p ∈ P, us.foldl (packed key) k (key p) = us.foldl exact m p := by
  induction us generalizing m k with
  | nil => exact h
  | cons u us ih =>
    apply ih
    · intro v hv
      exact hus v (List.mem_cons_of_mem _ hv)
    · exact packed_step hinj h (hus u List.mem_cons_self)

/-- The value that is put in at `q` is found at `p`. -/
theorem packed_collision {p q : α} (hne : p ≠ q) (hkey : key p = key q) (v : V) :
    packed key (fun _ => none) ⟨q, fun _ => some v⟩ (key p) = some v ∧
      exact (fun _ => none) ⟨q, fun _ => some v⟩ p = none := by
  constructor
  · rw [hkey]
    exact Function.update_self ..
  · exact Function.update_of_ne hne ..

end PackedMaps
