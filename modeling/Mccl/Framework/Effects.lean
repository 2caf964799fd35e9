import Mccl.Framework.ForkJoin

/-! # One Rank among Unknown Others

    What a single program guarantees whatever the other ranks send.

    * `Proc.wp`: every way to the end of the program satisfies a
      postcondition; a fork-join block may leave anything in memory.
    * `wp_reaches`: such a guarantee holds of the rank in every run of every net.
    * `Proc.Forks`: what holds whenever the program forks threads.
    * `Proc.Keeps`: no local action leaves a relation between stores.
    * `Proc.Confined`: no action and no thread breaks an invariant, which may be
      about the memory. -/

namespace ForkJoin

variable {ι κ β τ α γ : Type}

/-! ## Weakest preconditions -/

/-- If the program returns, `Q` holds, and if it raises, `E` holds. -/
def Proc.wp (Q : α → Store κ β τ → Prop) (E : String → Store κ β τ → Prop) :
    Proc ι κ β τ α → Store κ β τ → Prop
  | .ret a, s => Q a s
  | .raise msg, s => E msg s
  | .act f k, s => (k s).wp Q E (f s)
  | .par _ k, s => ∀ m, k.wp Q E { s with mem := m }

namespace Proc

variable {Q : α → Store κ β τ → Prop} {E : String → Store κ β τ → Prop} {s : Store κ β τ}

theorem wp_mono {Q' : α → Store κ β τ → Prop} {E' : String → Store κ β τ → Prop}
    {p : Proc ι κ β τ α} (h : p.wp Q E s) (hQ : ∀ a s, Q a s → Q' a s)
    (hE : ∀ msg s, E msg s → E' msg s) : p.wp Q' E' s := by
  induction p generalizing s with
  | ret a => exact hQ a s h
  | raise msg => exact hE msg s h
  | act f k ih => exact ih s h
  | par ts k ih => exact fun m => ih (h m)

theorem wp_bind {p : Proc ι κ β τ γ} {g : γ → Proc ι κ β τ α} :
    (p >>= g).wp Q E s ↔ p.wp (fun c => (g c).wp Q E) E s := by
  induction p generalizing s with
  | ret a => exact Iff.rfl
  | raise msg => exact Iff.rfl
  | act f k ih => exact ih s
  | par ts k ih => exact forall_congr' fun m => ih

/-- One statement, by what is known about it. -/
theorem wp_then {p : Proc ι κ β τ γ} {g : γ → Proc ι κ β τ α} {Q' : γ → Store κ β τ → Prop}
    {E' : String → Store κ β τ → Prop} (h : p.wp Q' E' s) (hQ : ∀ c s', Q' c s' → (g c).wp Q E s')
    (hE : ∀ msg s', E' msg s' → E msg s') : (p >>= g).wp Q E s :=
  wp_bind.mpr (wp_mono h hQ hE)

theorem wp_tryCatch {p : Proc ι κ β τ α} {h : String → Proc ι κ β τ α} :
    (p.tryCatch h).wp Q E s ↔ p.wp Q (fun msg => (h msg).wp Q E) s := by
  induction p generalizing s with
  | ret a => exact Iff.rfl
  | raise msg => exact Iff.rfl
  | act f k ih => exact ih s
  | par ts k ih => exact forall_congr' fun m => ih

theorem wp_get {Q : Store κ β τ → Store κ β τ → Prop} :
    (Proc.get : Proc ι κ β τ _).wp Q E s ↔ Q s s := Iff.rfl

variable {Q : Unit → Store κ β τ → Prop}

theorem wp_modify (f : Store κ β τ → Store κ β τ) :
    (Proc.modify f : Proc ι κ β τ Unit).wp Q E s ↔ Q () (f s) := Iff.rfl

theorem wp_fork (ts : List (Thread ι κ)) :
    (Proc.fork ts : Proc ι κ β τ Unit).wp Q E s ↔ ∀ m, Q () { s with mem := m } := Iff.rfl

theorem wp_check {c : Prop} [Decidable c] {msg : String} :
    (Proc.check c msg : Proc ι κ β τ Unit).wp Q E s ↔ (c → Q () s) ∧ (¬ c → E msg s) := by
  unfold Proc.check
  split
  · rename_i h
    simp [wp, h]
  · rename_i h
    simp [wp, h]

/-- A loop with an invariant. -/
theorem wp_forM {l : List γ} {g : γ → Proc ι κ β τ PUnit} {I : Store κ β τ → Prop}
    (h : ∀ c ∈ l, ∀ s, I s → (g c).wp (fun _ => I) E s) (hs : I s) :
    (ForM.forM l g).wp (fun _ => I) E s := by
  induction l generalizing s with
  | nil => exact hs
  | cons c l ih =>
    rw [List.forM_cons]
    refine wp_then (h c (by simp) s hs) (fun _ s' hs' => ?_) fun _ _ he => he
    exact ih (fun c' hc' => h c' (by simp [hc'])) hs'

/-- A loop that collects values. -/
theorem wp_mapM {δ : Type} {l : List γ} {g : γ → Proc ι κ β τ δ} {I : Store κ β τ → Prop}
    {A : γ → δ → Prop}
    (h : ∀ c ∈ l, ∀ s, I s → (g c).wp (fun d s' => I s' ∧ A c d) E s) (hs : I s) :
    (l.mapM g).wp (fun ds s' => I s' ∧ List.Forall₂ A l ds) E s := by
  induction l generalizing s with
  | nil => exact ⟨hs, .nil⟩
  | cons c l ih =>
    rw [List.mapM_cons]
    refine wp_then (h c (by simp) s hs) (fun d s' hs' => ?_) fun _ _ he => he
    exact wp_then (ih (fun c' hc' => h c' (by simp [hc'])) hs'.1)
      (fun ds s'' hs'' => ⟨hs''.1, .cons hs'.2 hs''.2⟩) fun _ _ he => he

/-- A loop with an invariant that counts the iterations. -/
theorem wp_forM_range {n : Nat} {g : Nat → Proc ι κ β τ PUnit} {I : Nat → Store κ β τ → Prop}
    (h : ∀ i < n, ∀ s, I i s → (g i).wp (fun _ => I (i + 1)) E s) (hs : I 0 s) :
    (ForM.forM (List.range n) g).wp (fun _ => I n) E s := by
  have hrest : ∀ m i, i + m = n → ∀ s, I i s →
      (ForM.forM (List.range' i m) g).wp (fun _ => I n) E s := by
    intro m
    induction m with
    | zero =>
      rintro i rfl s hs
      exact hs
    | succ m ih =>
      intro i hi s hs
      rw [List.range'_succ, List.forM_cons]
      exact wp_then (h i (by omega) s hs) (fun _ s' hs' => ih (i + 1) (by omega) s' hs')
        fun _ _ he => he
  rw [List.range_eq_range']
  exact hrest n 0 (by omega) s hs

/-- A loop that collects values, with an invariant over those collected so far. -/
theorem wp_mapM_range {δ : Type} {n : Nat} {g : Nat → Proc ι κ β τ δ} {I : List δ → Store κ β τ → Prop}
    (h : ∀ i < n, ∀ ds s, ds.length = i → I ds s → (g i).wp (fun d => I (ds ++ [d])) E s)
    (hs : I [] s) :
    ((List.range n).mapM g).wp (fun ds s' => ds.length = n ∧ I ds s') E s := by
  have hrest : ∀ m ds s, ds.length + m = n → I ds s →
      ((List.range' ds.length m).mapM g).wp
        (fun ds' s' => (ds ++ ds').length = n ∧ I (ds ++ ds') s') E s := by
    intro m
    induction m with
    | zero =>
      intro ds s hlen hs
      show (ds ++ []).length = n ∧ I (ds ++ []) s
      rw [List.append_nil]
      exact ⟨hlen, hs⟩
    | succ m ih =>
      intro ds s hlen hs
      rw [List.range'_succ, List.mapM_cons]
      refine wp_then (h ds.length (by omega) ds s rfl hs) (fun d s' hs' => ?_) fun _ _ he => he
      have hnext := ih (ds ++ [d]) s' (by simp; omega) hs'
      rw [List.length_append, List.length_singleton] at hnext
      refine wp_then hnext (fun ds' s'' hs'' => ?_) fun _ _ he => he
      rw [List.append_assoc] at hs''
      exact hs''
  rw [List.range_eq_range']
  have hall := hrest n [] s (by simp) hs
  simpa using hall

end Proc

/-! ## Forks -/

/-- Whenever the program forks threads, `F` holds of them and of the store. -/
def Proc.Forks (F : List (Thread ι κ) → Store κ β τ → Prop) : Proc ι κ β τ α → Store κ β τ → Prop
  | .ret _, _ => True
  | .raise _, _ => True
  | .act f k, s => (k s).Forks F (f s)
  | .par ts k, s => F ts s ∧ ∀ m, k.Forks F { s with mem := m }

namespace Proc.Forks

variable {F : List (Thread ι κ) → Store κ β τ → Prop} {s : Store κ β τ}

/-- In a sequence, what follows is forked where the first part returns. -/
theorem bind {p : Proc ι κ β τ γ} {g : γ → Proc ι κ β τ α} {Q : γ → Store κ β τ → Prop}
    {E : String → Store κ β τ → Prop} (hp : p.Forks F s) (hwp : p.wp Q E s)
    (hg : ∀ c s', Q c s' → (g c).Forks F s') : (p >>= g).Forks F s := by
  induction p generalizing s with
  | ret a => exact hg a s hwp
  | raise msg => trivial
  | act f k ih => exact ih s hp hwp
  | par ts k ih => exact ⟨hp.1, fun m => ih (hp.2 m) (hwp m)⟩

theorem check_then {c : Prop} [Decidable c] {msg : String} {g : Unit → Proc ι κ β τ α}
    (h : c → (g ()).Forks F s) : (Proc.check c msg >>= g).Forks F s := by
  unfold Proc.check
  split
  · exact h ‹c›
  · trivial

theorem fork_then {ts : List (Thread ι κ)} {g : Unit → Proc ι κ β τ α} (h : F ts s)
    (hg : ∀ s', (g ()).Forks F s') : (Proc.fork ts >>= g).Forks F s :=
  ⟨h, fun _ => hg _⟩

end Proc.Forks

/-! ## Relations that every action keeps -/

/-- Every local action of the program stays within `R`. -/
def Proc.Keeps (R : Store κ β τ → Store κ β τ → Prop) : Proc ι κ β τ α → Prop
  | .ret _ => True
  | .raise _ => True
  | .act f k => ∀ s, R s (f s) ∧ (k s).Keeps R
  | .par _ k => k.Keeps R

/-- A relation that does not look at the memory. -/
structure Blind (R : Store κ β τ → Store κ β τ → Prop) : Prop where
  refl : ∀ s, R s s
  trans : ∀ {s s' s''}, R s s' → R s' s'' → R s s''
  mem : ∀ s m, R s { s with mem := m }

variable {p : Proc ι κ β τ α} {g : α → Proc ι κ β τ γ} {l : List α}

namespace Proc.Keeps

variable {R : Store κ β τ → Store κ β τ → Prop}

theorem bind (hp : p.Keeps R)
    (hg : ∀ a, (g a).Keeps R) : (p >>= g).Keeps R := by
  induction p with
  | ret a => exact hg a
  | raise msg => trivial
  | act f k ih => exact fun s => ⟨(hp s).1, ih s (hp s).2⟩
  | par ts k ih => exact ih hp

theorem tryCatch {h : String → Proc ι κ β τ α} (hp : p.Keeps R)
    (hh : ∀ msg, (h msg).Keeps R) : (p.tryCatch h).Keeps R := by
  induction p with
  | ret a => trivial
  | raise msg => exact hh msg
  | act f k ih => exact fun s => ⟨(hp s).1, ih s (hp s).2⟩
  | par ts k ih => exact ih hp

theorem forM {g : α → Proc ι κ β τ PUnit} (hg : ∀ a ∈ l, (g a).Keeps R) :
    (ForM.forM l g).Keeps R := by
  induction l with
  | nil => trivial
  | cons a l ih =>
    rw [List.forM_cons]
    exact (hg a (by simp)).bind fun _ => ih fun b hb => hg b (by simp [hb])

theorem mapM (hg : ∀ a ∈ l, (g a).Keeps R) :
    (l.mapM g).Keeps R := by
  induction l with
  | nil => trivial
  | cons a l ih =>
    rw [List.mapM_cons]
    exact (hg a (by simp)).bind fun _ => (ih fun b hb => hg b (by simp [hb])).bind fun _ => trivial

theorem get (hR : Blind R) : (Proc.get : Proc ι κ β τ _).Keeps R := fun s => ⟨hR.refl s, trivial⟩

theorem modify {f : Store κ β τ → Store κ β τ} (h : ∀ s, R s (f s)) :
    (Proc.modify f : Proc ι κ β τ Unit).Keeps R := fun s => ⟨h s, trivial⟩

theorem check (c : Prop) [Decidable c] (msg : String) :
    (Proc.check c msg : Proc ι κ β τ Unit).Keeps R := by
  unfold Proc.check
  split <;> trivial

/-- The program as a whole keeps the relation. -/
theorem wp (h : p.Keeps R) (hR : Blind R) (s : Store κ β τ) :
    p.wp (fun _ => R s) (fun _ => R s) s := by
  induction p generalizing s with
  | ret a => exact hR.refl s
  | raise msg => exact hR.refl s
  | act f k ih =>
    refine wp_mono (ih s (h s).2 (f s)) ?_ ?_ <;> exact fun _ _ => hR.trans (h s).1
  | par ts k ih =>
    intro m
    refine wp_mono (ih h { s with mem := m }) ?_ ?_ <;> exact fun _ _ => hR.trans (hR.mem s m)

end Proc.Keeps

/-! ## Invariants of a program -/

/-- However the program ends, `I` holds if it held before. -/
def Proc.Preserves (I : Store κ β τ → Prop) (p : Proc ι κ β τ α) : Prop :=
  ∀ s, I s → p.wp (fun _ => I) (fun _ => I) s

namespace Proc.Preserves

variable {I : Store κ β τ → Prop}

theorem of_keeps {R : Store κ β τ → Store κ β τ → Prop} (h : p.Keeps R)
    (hR : Blind R) (hI : ∀ s s', R s s' → I s → I s') : p.Preserves I := by
  intro s hs
  refine wp_mono (h.wp hR s) ?_ ?_ <;> exact fun _ s' hs' => hI s s' hs' hs

theorem bind (hp : p.Preserves I)
    (hg : ∀ a, (g a).Preserves I) : (p >>= g).Preserves I := by
  intro s hs
  rw [wp_bind]
  exact wp_mono (hp s hs) (fun a s' hs' => hg a s' hs') fun _ _ h => h

theorem forM {g : α → Proc ι κ β τ PUnit} (hg : ∀ a ∈ l, (g a).Preserves I) :
    (ForM.forM l g).Preserves I :=
  fun _ hs => wp_forM (fun a ha s hs => hg a ha s hs) hs

end Proc.Preserves

/-! ## Invariants of actions and threads -/

/-- Every action of the program keeps `I`, and so does everything that its
    threads can write. -/
def Proc.Confined (I : Store κ β τ → Prop) : Proc ι κ β τ α → Prop
  | .ret _ => True
  | .raise _ => True
  | .act f k => ∀ s, I s → I (f s) ∧ (k s).Confined I
  | .par ts k => (∀ s m, I s → (∀ a, (∀ t ∈ ts, a ∉ t.writes) → m a = s.mem a) →
      I { s with mem := m }) ∧ k.Confined I

namespace Proc.Confined

variable {I : Store κ β τ → Prop}

theorem bind (hp : p.Confined I)
    (hg : ∀ a, (g a).Confined I) : (p >>= g).Confined I := by
  induction p with
  | ret a => exact hg a
  | raise msg => trivial
  | act f k ih => exact fun s hs => ⟨(hp s hs).1, ih s (hp s hs).2⟩
  | par ts k ih => exact ⟨hp.1, ih hp.2⟩

theorem forM {g : α → Proc ι κ β τ PUnit} (hg : ∀ a ∈ l, (g a).Confined I) :
    (ForM.forM l g).Confined I := by
  induction l with
  | nil => trivial
  | cons a l ih =>
    rw [List.forM_cons]
    exact (hg a (by simp)).bind fun _ => ih fun b hb => hg b (by simp [hb])

theorem get_bind {g : Store κ β τ → Proc ι κ β τ α} (h : ∀ s, I s → (g s).Confined I) :
    (Proc.get >>= g).Confined I := fun s hs => ⟨hs, h s hs⟩

theorem modify {f : Store κ β τ → Store κ β τ} (h : ∀ s, I s → I (f s)) :
    (Proc.modify f : Proc ι κ β τ Unit).Confined I := fun s hs => ⟨h s hs, trivial⟩

theorem check (c : Prop) [Decidable c] (msg : String) :
    (Proc.check c msg : Proc ι κ β τ Unit).Confined I := by
  unfold Proc.check
  split <;> trivial

end Proc.Confined

/-! ## In a net -/

section net

variable [DecidableEq κ] {n n' : Node ι κ β τ} {i : Option Nat} {e : Event ι β}

variable {s s' : Store κ β τ} {t t' : Thread ι κ}

theorem ThreadStep.eq_mem (h : ThreadStep s t e s' t') :
    s' = { s with mem := s'.mem } := by
  cases h <;> rfl

theorem ThreadStep.writes_subset
    (h : ThreadStep s t e s' t') : t'.writes ⊆ t.writes := by
  cases h <;> simp [Thread.writes]

theorem ThreadStep.mem_eq
    (h : ThreadStep s t e s' t') {a : κ} (ha : a ∉ t.writes) : s'.mem a = s.mem a := by
  cases h with
  | recvByte q b as t x =>
    have hne : a ≠ b := by
      rintro rfl
      simp [Thread.writes] at ha
    exact Store.write_mem_ne s x.2 hne
  | _ => rfl

theorem NodeStep.wp {Q : Unit → Store κ β τ → Prop} {E : String → Store κ β τ → Prop}
    (h : NodeStep n i e n') (hn : n.prog.wp Q E n.store) : n'.prog.wp Q E n'.store := by
  cases h with
  | thread hi ht =>
    intro m
    rw [ht.eq_mem]
    exact hn m
  | @join s ts k hts => exact hn s.mem
  | act => exact hn

theorem NodeStep.keeps {R : Store κ β τ → Store κ β τ → Prop} (h : NodeStep n i e n')
    (hR : Blind R) (hn : n.prog.Keeps R) : R n.store n'.store ∧ n'.prog.Keeps R := by
  cases h with
  | @thread s s' ts k i t t' e hi ht =>
    refine ⟨?_, hn⟩
    rw [ht.eq_mem]
    exact hR.mem s s'.mem
  | @join s ts k hts => exact ⟨hR.refl s, hn⟩
  | @act s f k => exact hn s

theorem NodeStep.confined {I : Store κ β τ → Prop} (h : NodeStep n i e n') (hn : n.prog.Confined I)
    (hs : I n.store) : I n'.store ∧ n'.prog.Confined I := by
  cases h with
  | @thread s s' ts k i t t' e hi ht =>
    have hmem : t ∈ ts := List.mem_of_getElem? hi
    constructor
    · show I s'
      rw [ht.eq_mem]
      exact hn.1 s s'.mem hs fun a ha => ht.mem_eq (ha t hmem)
    · refine ⟨fun s₁ m hs₁ hm => hn.1 s₁ m hs₁ fun a ha => hm a fun u hu => ?_, hn.2⟩
      rcases List.mem_or_eq_of_mem_set hu with hu | rfl
      · exact ha u hu
      · exact fun haw => ha t hmem (ht.writes_subset haw)
  | join => exact ⟨hs, hn.2⟩
  | act => exact hn _ hs

variable [DecidableEq ι] {cap : ℕ∞} {x y : Net ι κ β τ} {r : ι}

/-- What a program guarantees holds of the rank that runs it in any net. -/
theorem wp_reaches (h : Reaches cap x y) {Q : Unit → Store κ β τ → Prop}
    {E : String → Store κ β τ → Prop} (hx : (x.node r).prog.wp Q E (x.node r).store) :
    (y.node r).prog.wp Q E (y.node r).store :=
  node_reaches (I := fun n => n.prog.wp Q E n.store) (fun _ _ _ _ hn => hn.wp) h hx

/-- However far the rank gets in any net, it has stayed within the relation. -/
theorem keeps_reaches {R : Store κ β τ → Store κ β τ → Prop} (hR : Blind R) (h : Reaches cap x y)
    (hx : (x.node r).prog.Keeps R) :
    R (x.node r).store (y.node r).store ∧ (y.node r).prog.Keeps R := by
  refine node_reaches (I := fun n => R (x.node r).store n.store ∧ n.prog.Keeps R) ?_ h ⟨hR.refl _, hx⟩
  intro n i e n' hn hI
  obtain ⟨hrel, hkeeps⟩ := hn.keeps hR hI.2
  exact ⟨hR.trans hI.1 hrel, hkeeps⟩

/-- However far the rank gets in any net, the invariant holds. -/
theorem confined_reaches {I : Store κ β τ → Prop} (h : Reaches cap x y)
    (hx : (x.node r).prog.Confined I) (hs : I (x.node r).store) :
    I (y.node r).store ∧ (y.node r).prog.Confined I :=
  node_reaches (I := fun n => I n.store ∧ n.prog.Confined I)
    (fun _ _ _ _ hn hI => hn.confined hI.2 hI.1) h ⟨hs, hx⟩

end net

end ForkJoin
