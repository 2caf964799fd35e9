import Mccl.Framework.Schedule

/-! # Collective Triples

    A Hoare logic for programs that all ranks of a group run together.
    `Triple cap l P p Q`: from stores in `P`, with no byte in flight, the
    ranks in `l` can run `p` to its end together; the stores are then in
    `Q`, and again no byte is in flight. The other ranks do not move.

    * `Computes`: what a single rank computes without communication.
    * `Triple.seq`, `Triple.forM`, `Triple.comp`, `Triple.messages`: the
      rules for sequences, loops, local computations and rounds of messages.
    * `Triple.outcome`: since one run decides all runs, a triple speaks about
      every interleaving and every capacity. -/

namespace ForkJoin

variable {ι κ β τ : Type}

/-! ## Contexts -/

/-- A program context that leaves the steps of the program alone and only
    changes what follows them, like `>>=` and `tryCatch`. -/
structure Context (F : Proc ι κ β τ Unit → Proc ι κ β τ Unit) : Prop where
  act : ∀ f k, F (.act f k) = .act f fun s => F (k s)
  par : ∀ ts k, F (.par ts k) = .par ts (F k)

theorem Context.bind (k : Unit → Proc ι κ β τ Unit) : Context (ι := ι) fun p => p >>= k :=
  ⟨fun _ _ => rfl, fun _ _ => rfl⟩

theorem Context.tryCatch (h : String → Proc ι κ β τ Unit) :
    Context (ι := ι) fun p => p.tryCatch h :=
  ⟨fun _ _ => rfl, fun _ _ => rfl⟩

theorem Context.comp {F G : Proc ι κ β τ Unit → Proc ι κ β τ Unit} (hF : Context F)
    (hG : Context G) : Context fun p => F (G p) :=
  ⟨fun f k => by rw [hG.act, hF.act], fun ts k => by rw [hG.par, hF.par]⟩

/-! ## Messages -/

/-- A message between two ranks of `l`, to a place of its size. -/
structure Xfer.Within (l : List ι) (m : Xfer ι κ) : Prop where
  ne : m.from_ ≠ m.to_
  length_eq : m.src.length = m.dst.length
  nodup : m.dst.Nodup
  from_mem : m.from_ ∈ l
  to_mem : m.to_ ∈ l

section pairing
variable {l : List ι} {S R : ι → Prop} {to_ from_ : ι → ι} {src dst : ι → List κ}

/-- The ranks of `l` in `S` have their partners in `R`, and the other way round. -/
structure Pairing (l : List ι) (S R : ι → Prop) (to_ from_ : ι → ι) : Prop where
  target : ∀ a ∈ l, S a → to_ a ∈ l ∧ R (to_ a) ∧ from_ (to_ a) = a
  source : ∀ b ∈ l, R b → from_ b ∈ l ∧ S (from_ b) ∧ to_ (from_ b) = b
  apart : ∀ r ∈ l, S r → ¬ R r

theorem Pairing.symm (h : Pairing l S R to_ from_) : Pairing l R S from_ to_ :=
  ⟨h.source, h.target, fun r hr hR hS => h.apart r hr hS hR⟩

theorem Pairing.from_ne (h : Pairing l S R to_ from_) {b : ι} (hb : b ∈ l) (hR : R b) : from_ b ≠ b := by
  intro hself
  obtain ⟨-, hS, -⟩ := h.source b hb hR
  rw [hself] at hS
  exact h.apart b hb hS hR

/-- Every rank in `R` gets a message from its partner. -/
def pairMessages (l : List ι) (R : ι → Prop) [DecidablePred R] (from_ : ι → ι) (src dst : ι → List κ) :
    List (Xfer ι κ) :=
  (l.filter R).map fun b => ⟨from_ b, src (from_ b), b, dst b⟩

variable [DecidablePred R]

theorem mem_pairMessages {m : Xfer ι κ} : m ∈ pairMessages l R from_ src dst ↔
    ∃ b ∈ l, R b ∧ m = ⟨from_ b, src (from_ b), b, dst b⟩ := by
  simp only [pairMessages, List.mem_map, List.mem_filter, decide_eq_true_eq, and_assoc]
  exact exists_congr fun b => and_congr_right fun _ => and_congr_right fun _ => eq_comm

theorem Pairing.send_iff (h : Pairing l S R to_ from_) {r : ι} (hr : r ∈ l) (hS : S r) {t : Thread ι κ} :
    t = [.send (to_ r) (src r)] ↔
      (∃ m ∈ pairMessages l R from_ src dst, m.from_ = r ∧ t = [.send m.to_ m.src]) ∨
      ∃ m ∈ pairMessages l R from_ src dst, m.to_ = r ∧ t = [.recv m.from_ m.dst] := by
  obtain ⟨hto, hto', hback⟩ := h.target r hr hS
  constructor
  · rintro rfl
    exact .inl ⟨_, mem_pairMessages.mpr ⟨to_ r, hto, hto', rfl⟩, hback, by simp [hback]⟩
  · rintro (⟨m, hm, hmr, rfl⟩ | ⟨m, hm, hmr, rfl⟩)
    · obtain ⟨b, hb, hb', rfl⟩ := mem_pairMessages.mp hm
      have hfrom : from_ b = r := hmr
      simp [← hfrom, (h.source b hb hb').2.2]
    · obtain ⟨b, hb, hb', rfl⟩ := mem_pairMessages.mp hm
      have hbr : b = r := hmr
      exact absurd (hbr ▸ hb') (h.apart r hr hS)

theorem Pairing.recv_iff (h : Pairing l S R to_ from_) {r : ι} (hr : r ∈ l) (hR : R r) {t : Thread ι κ} :
    t = [.recv (from_ r) (dst r)] ↔
      (∃ m ∈ pairMessages l R from_ src dst, m.from_ = r ∧ t = [.send m.to_ m.src]) ∨
      ∃ m ∈ pairMessages l R from_ src dst, m.to_ = r ∧ t = [.recv m.from_ m.dst] := by
  constructor
  · rintro rfl
    exact .inr ⟨_, mem_pairMessages.mpr ⟨r, hr, hR, rfl⟩, rfl, rfl⟩
  · rintro (⟨m, hm, hmr, rfl⟩ | ⟨m, hm, hmr, rfl⟩)
    · obtain ⟨b, hb, hb', rfl⟩ := mem_pairMessages.mp hm
      have hfrom : from_ b = r := hmr
      exact absurd hR (h.apart r hr (hfrom ▸ (h.source b hb hb').2.1))
    · obtain ⟨b, hb, hb', rfl⟩ := mem_pairMessages.mp hm
      have hbr : b = r := hmr
      simp [hbr]

end pairing

/-! ## Entering -/

section enter
variable [DecidableEq ι]

/-- The ranks in `l` run `p` and then `k`, the others just `k`. -/
def enter (l : List ι) (p k : ι → Proc ι κ β τ Unit) (r : ι) : Proc ι κ β τ Unit :=
  if r ∈ l then p r >>= fun _ => k r else k r

theorem enter_congr {l : List ι} {p q : ι → Proc ι κ β τ Unit} (h : ∀ r ∈ l, q r = p r)
    (k : ι → Proc ι κ β τ Unit) : enter l q k = enter l p k := by
  funext r
  unfold enter
  split
  · rename_i hr
    rw [h r hr]
  · rfl

theorem enter_seq (l : List ι) (p q k : ι → Proc ι κ β τ Unit) :
    enter l (fun r => p r >>= fun _ => q r) k = enter l p (enter l q k) := by
  funext r
  unfold enter
  split
  · simp only [Proc.bind_assoc]
  · rfl

theorem enter_ret (l : List ι) (p : ι → Proc ι κ β τ Unit) :
    enter l p (fun _ => .ret ()) = fun r => if r ∈ l then p r else .ret () := by
  funext r
  rw [enter, show (p r >>= fun _ => Proc.ret ()) = p r from Proc.bind_ret (p r)]

end enter

variable [DecidableEq κ]

/-! ## Local computations -/

/-- The program takes the store from `s` to `s'` and returns `a`, in local
    steps only. -/
def Computes {α : Type} (p : Proc ι κ β τ α) (s s' : Store κ β τ) (a : α) : Prop :=
  ∀ k : α → Proc ι κ β τ Unit, Relation.ReflTransGen Silent ⟨s, p >>= k⟩ ⟨s', k a⟩

namespace Computes

variable {α γ : Type} {s s' s'' : Store κ β τ}

theorem ret (s : Store κ β τ) (a : α) : Computes (.ret a : Proc ι κ β τ α) s s a :=
  fun _ => .refl

theorem bind {p : Proc ι κ β τ α} {g : α → Proc ι κ β τ γ} {a : α} {b : γ}
    (hp : Computes p s s' a) (hg : Computes (g a) s' s'' b) : Computes (p >>= g) s s'' b := by
  intro k
  rw [Proc.bind_assoc]
  exact (hp _).trans (hg k)

theorem get (s : Store κ β τ) : Computes (Proc.get : Proc ι κ β τ _) s s s :=
  fun _ => .single ⟨none, .act⟩

theorem modify (f : Store κ β τ → Store κ β τ) (s : Store κ β τ) :
    Computes (Proc.modify f : Proc ι κ β τ Unit) s (f s) () :=
  fun _ => .single ⟨none, .act⟩

/-- A loop that collects values. Every iteration keeps `I`, and its value is
    related to the element by `A`. -/
theorem mapM {l : List α} {g : α → Proc ι κ β τ γ} {I : Store κ β τ → Prop} {A : α → γ → Prop}
    (h : ∀ a ∈ l, ∀ s, I s → ∃ s' c, Computes (g a) s s' c ∧ I s' ∧ A a c) (hs : I s) :
    ∃ s' cs, Computes (l.mapM g) s s' cs ∧ I s' ∧ List.Forall₂ A l cs := by
  induction l generalizing s with
  | nil => exact ⟨s, [], ret _ _, hs, .nil⟩
  | cons a l ih =>
    obtain ⟨s₁, c, hc, hs₁, hac⟩ := h a (by simp) s hs
    obtain ⟨s₂, cs, hcs, hs₂, hall⟩ := ih (fun a' ha' => h a' (by simp [ha'])) hs₁
    refine ⟨s₂, c :: cs, ?_, hs₂, .cons hac hall⟩
    rw [List.mapM_cons]
    exact hc.bind (hcs.bind (ret _ _))

end Computes

/-! ## Triples -/

theorem NodeStep.context {F : Proc ι κ β τ Unit → Proc ι κ β τ Unit} (hF : Context F)
    {n n' : Node ι κ β τ} {i : Option Nat} {e : Event ι β} (h : NodeStep n i e n') :
    NodeStep ⟨n.store, F n.prog⟩ i e ⟨n'.store, F n'.prog⟩ := by
  cases h with
  | thread hi ht =>
    rw [hF.par, hF.par]
    exact .thread hi ht
  | join hts =>
    rw [hF.par]
    exact .join hts
  | act =>
    rw [hF.act]
    exact .act

/-- The net with every program in its context. -/
def Net.inContext (F : ι → Proc ι κ β τ Unit → Proc ι κ β τ Unit) (s : Net ι κ β τ) :
    Net ι κ β τ :=
  { s with node := fun r => ⟨(s.node r).store, F r (s.node r).prog⟩ }

/-- Where `p` holds something with `R` can be chosen, elsewhere `f` remains. -/
theorem exists_extend {σ : Type} {p : ι → Prop} {R : ι → σ → Prop} (f : ι → σ)
    (h : ∀ r, p r → ∃ s, R r s) : ∃ g : ι → σ, (∀ r, p r → R r (g r)) ∧ ∀ r, ¬p r → g r = f r := by
  have hall : ∀ r, ∃ s, (p r → R r s) ∧ (¬p r → s = f r) := by
    intro r
    by_cases hr : p r
    · obtain ⟨s, hs⟩ := h r hr
      exact ⟨s, fun _ => hs, fun h => absurd hr h⟩
    · exact ⟨f r, fun h => absurd h hr, fun _ => rfl⟩
  choose g hg using hall
  exact ⟨g, fun r => (hg r).1, fun r => (hg r).2⟩

variable [DecidableEq ι] {cap : ℕ∞}

theorem Step.context {F : ι → Proc ι κ β τ Unit → Proc ι κ β τ Unit} (hF : ∀ r, Context (F r))
    {s s' : Net ι κ β τ} (h : Step cap s s') : Step cap (s.inContext F) (s'.inContext F) := by
  cases h with
  | @mk r i e n c hn hc =>
    refine .of_eq rfl (hn.context (hF r)) hc ?_
    simp only [Net.inContext, Net.mk.injEq, and_true]
    funext q
    by_cases hq : q = r
    · subst hq
      simp
    · simp [hq]

theorem reaches_context {F : ι → Proc ι κ β τ Unit → Proc ι κ β τ Unit}
    (hF : ∀ r, Context (F r)) {s s' : Net ι κ β τ} (h : Reaches cap s s') :
    Reaches cap (s.inContext F) (s'.inContext F) := by
  induction h with
  | refl => exact .refl
  | tail _ hstep ih => exact ih.tail (hstep.context hF)

structure Triple (cap : ℕ∞) (l : List ι) (P : (ι → Store κ β τ) → Prop)
    (p : ι → Proc ι κ β τ Unit) (Q : (ι → Store κ β τ) → Prop) : Prop where
  raceFree : ∀ r ∈ l, (p r).RaceFree
  run : ∀ {st : ι → Store κ β τ}, P st → ∀ {k : ι → Proc ι κ β τ Unit}, (∀ r, (k r).RaceFree) →
    ∃ st', Q st' ∧
      Reaches cap (quiet fun r => ⟨st r, enter l p k r⟩) (quiet fun r => ⟨st' r, k r⟩)

namespace Triple

variable {l : List ι} {P P' Q Q' R : (ι → Store κ β τ) → Prop} {p q : ι → Proc ι κ β τ Unit}

theorem conseq (h : Triple cap l P p Q) (hP : ∀ st, P' st → P st) (hQ : ∀ st, Q st → Q' st) :
    Triple cap l P' p Q' where
  raceFree := h.raceFree
  run := by
    intro st hst k hk
    obtain ⟨st', hst', hreach⟩ := h.run (hP st hst) hk
    exact ⟨st', hQ st' hst', hreach⟩

/-- Only the programs of the ranks in `l` matter. -/
theorem congr (h : Triple cap l P p Q) (hpq : ∀ r ∈ l, q r = p r) : Triple cap l P q Q where
  raceFree := fun r hr => hpq r hr ▸ h.raceFree r hr
  run := by
    intro st hst k hk
    rw [enter_congr hpq]
    exact h.run hst hk

theorem skip (l : List ι) (P : (ι → Store κ β τ) → Prop) :
    Triple cap l P (fun _ => .ret ()) P where
  raceFree := fun _ _ => trivial
  run := by
    intro st hst k _
    have : enter l (fun _ => .ret ()) k = k := by
      funext r
      simp [enter]
    rw [this]
    exact ⟨st, hst, .refl⟩

omit [DecidableEq κ] in
theorem enter_raceFree (hp : ∀ r ∈ l, (p r).RaceFree) {k : ι → Proc ι κ β τ Unit}
    (hk : ∀ r, (k r).RaceFree) (r : ι) : (enter l p k r).RaceFree := by
  unfold enter
  split
  · exact (hp r ‹_›).bind fun _ => hk r
  · exact hk r

theorem seq (hp : Triple cap l P p Q) (hq : Triple cap l Q q R) :
    Triple cap l P (fun r => p r >>= fun _ => q r) R where
  raceFree := fun r hr => (hp.raceFree r hr).bind fun _ => hq.raceFree r hr
  run := by
    intro st hst k hk
    obtain ⟨st₁, hst₁, h₁⟩ := hp.run hst (enter_raceFree hq.raceFree hk)
    obtain ⟨st₂, hst₂, h₂⟩ := hq.run hst₁ hk
    rw [enter_seq]
    exact ⟨st₂, hst₂, h₁.trans h₂⟩

/-- A triple in front of any program context. -/
theorem reaches_in (h : Triple cap l P p Q) {st : ι → Store κ β τ} (hst : P st)
    {F : ι → Proc ι κ β τ Unit → Proc ι κ β τ Unit} (hF : ∀ r, Context (F r)) :
    ∃ st', Q st' ∧ Reaches cap
      (quiet fun r => ⟨st r, F r (if r ∈ l then p r else .ret ())⟩)
      (quiet fun r => ⟨st' r, F r (.ret ())⟩) := by
  obtain ⟨st', hst', hreach⟩ := h.run hst (k := fun _ => .ret ()) fun _ => trivial
  refine ⟨st', hst', ?_⟩
  rw [enter_ret] at hreach
  exact reaches_context hF hreach

/-- Run `p` inside a program context, then what is left of the context. -/
theorem context (h : Triple cap l P p Q) {F : ι → Proc ι κ β τ Unit → Proc ι κ β τ Unit}
    (hF : ∀ r, Context (F r)) (hrf : ∀ r ∈ l, (F r (p r)).RaceFree)
    (hrest : Triple cap l Q (fun r => F r (.ret ())) R) : Triple cap l P (fun r => F r (p r)) R where
  raceFree := hrf
  run := by
    intro st hst k hk
    let G : ι → Proc ι κ β τ Unit → Proc ι κ β τ Unit := fun r q =>
      if r ∈ l then F r q >>= fun _ => k r else q >>= fun _ => k r
    have hG : ∀ r, Context (G r) := by
      intro r
      by_cases hr : r ∈ l
      · simp only [G, hr, if_true]
        exact (Context.bind _).comp (hF r)
      · simp only [G, hr, if_false]
        exact Context.bind _
    obtain ⟨st₁, hst₁, h₁⟩ := h.reaches_in hst hG
    obtain ⟨st₂, hst₂, h₂⟩ := hrest.run hst₁ hk
    refine ⟨st₂, hst₂, .trans ?_ h₂⟩
    convert h₁ using 4 with r r
    · by_cases hr : r ∈ l <;> simp [enter, G, hr]
    · by_cases hr : r ∈ l <;> simp [enter, G, hr]

/-- A program that does not raise does not reach the handler. -/
theorem tryCatch {h : ι → String → Proc ι κ β τ Unit} (hp : Triple cap l P p Q)
    (hh : ∀ r ∈ l, ∀ msg, (h r msg).RaceFree) : Triple cap l P (fun r => (p r).tryCatch (h r)) Q :=
  hp.context (fun r => Context.tryCatch (h r)) (fun r hr => (hp.raceFree r hr).tryCatch (hh r hr))
    (skip l Q)

/-- A local computation of all ranks whose results the rest depends on. -/
theorem bind {α : Type} {p : ι → Proc ι κ β τ α} {g : ι → α → Proc ι κ β τ Unit}
    (hrf : ∀ r ∈ l, (p r >>= g r).RaceFree) (h : ∀ st, P st → ∃ (a : ι → α) (st' : ι → Store κ β τ),
      (∀ r ∈ l, Computes (p r) (st r) (st' r) (a r)) ∧ (∀ r ∉ l, st' r = st r) ∧
        Triple cap l (· = st') (fun r => g r (a r)) Q) :
    Triple cap l P (fun r => p r >>= g r) Q where
  raceFree := hrf
  run := by
    intro st hst k hk
    obtain ⟨a, st', hin, hout, htriple⟩ := h st hst
    obtain ⟨st'', hst'', hreach⟩ := htriple.run rfl hk
    refine ⟨st'', hst'', .trans (silent_all l ?_ ?_) hreach⟩
    · intro r hr
      simp only [enter, hr, if_true, Proc.bind_assoc]
      exact hin r hr _
    · intro r hr
      simp [enter, hr, hout r hr]

/-- A loop with an invariant. -/
theorem forM {body : ι → Nat → Proc ι κ β τ PUnit} {n : Nat} (inv : Nat → (ι → Store κ β τ) → Prop)
    (h : ∀ i < n, Triple cap l (inv i) (fun r => body r i) (inv (i + 1))) :
    Triple cap l (inv 0) (fun r => ForM.forM (List.range n) (body r)) (inv n) := by
  have key : ∀ m i, i + m = n →
      Triple cap l (inv i) (fun r => ForM.forM (List.range' i m) (body r)) (inv n) := by
    intro m
    induction m with
    | zero =>
      rintro i rfl
      exact skip l _
    | succ m ih =>
      intro i hi
      refine ((h i (by omega)).seq (ih (i + 1) (by omega))).congr fun r _ => ?_
      rw [List.range'_succ, List.forM_cons]
  simp only [List.range_eq_range']
  exact key n 0 (by omega)

/-- Ranks that have nothing to do. -/
theorem extend {l' : List ι} (h : Triple cap l' P q Q) (hsub : l' ⊆ l)
    (hin : ∀ r ∈ l', p r = q r) (hout : ∀ r ∈ l, r ∉ l' → p r = .ret ()) :
    Triple cap l P p Q where
  raceFree := by
    intro r hr
    by_cases hr' : r ∈ l'
    · rw [hin r hr']
      exact h.raceFree r hr'
    · rw [hout r hr hr']
      trivial
  run := by
    intro st hst k hk
    have : enter l p k = enter l' q k := by
      funext r
      by_cases hr' : r ∈ l'
      · simp [enter, hr', hsub hr', hin r hr']
      · by_cases hr : r ∈ l
        · simp [enter, hr, hr', hout r hr hr']
        · simp [enter, hr, hr']
    rw [this]
    exact h.run hst hk

/-- Local computations of all ranks. -/
theorem comp (hrf : ∀ r ∈ l, (p r).RaceFree)
    (h : ∀ st, P st → ∃ st', Q st' ∧ (∀ r ∈ l, Computes (p r) (st r) (st' r) ()) ∧
      ∀ r ∉ l, st' r = st r) : Triple cap l P p Q where
  raceFree := hrf
  run := by
    intro st hst k _
    obtain ⟨st', hst', hin, hout⟩ := h st hst
    refine ⟨st', hst', silent_all l ?_ ?_⟩
    · intro r hr
      simpa only [enter, hr, if_true] using hin r hr fun _ => k r
    · intro r hr
      simp [enter, hr, hout r hr]

theorem sessions (ps : List (Session ι κ)) {ts : ι → List (Thread ι κ)}
    (hruns : ∀ s ∈ ps, s.Runs β τ cap) (hapart : ps.Pairwise Session.Apart)
    (hin : ∀ s ∈ ps, ∀ r t, s.Hits r t → r ∈ l ∧ t ∈ ts r)
    (hcover : ∀ r ∈ l, ∀ t ∈ ts r, t = [] ∨ ∃ s ∈ ps, s.Hits r t)
    (hind : ∀ r ∈ l, (ts r).Pairwise Thread.Indep)
    (htag : ∀ st, P st → ∀ s ∈ ps, (st s.a).tag = (st s.b).tag)
    (hQ : ∀ st st', P st → Moved (ps.flatMap Session.moves) st st' → Q st') :
    Triple cap l P (fun r => Proc.fork (ts r)) Q where
  raceFree := fun r hr => ⟨hind r hr, trivial⟩
  run := by
    intro st hst k hk
    have hstart : ∀ r ∈ l, enter l (fun r => Proc.fork (ts r)) k r = .par (ts r) (k r) := by
      intro r hr
      simp [enter, hr, Proc.fork]
    have hidle : ∀ r ∉ l, enter l (fun r => Proc.fork (ts r)) k r = k r := by
      intro r hr
      simp [enter, hr]
    have hrf : ∀ r ∈ l, (Proc.fork (ts r) : Proc ι κ β τ Unit).RaceFree :=
      fun r hr => ⟨hind r hr, trivial⟩
    obtain ⟨st', hreach, hmoved⟩ :=
      round hruns hapart hstart hidle hin hcover (htag st hst) (enter_raceFree hrf hk)
    exact ⟨st', hQ st st' hst hmoved, hreach⟩

/-- A round of messages: every rank in `l` forks one thread per message that
    it sends or receives. -/
theorem messages (ms : List (Xfer ι κ)) {ts : ι → List (Thread ι κ)} (hcap : 0 < cap)
    (hms : ∀ m ∈ ms, m.Within l)
    (hpair : ms.Pairwise fun m m' => (m.from_, m.to_) ≠ (m'.from_, m'.to_))
    (hts : ∀ r ∈ l, ∀ t, t ∈ ts r ↔ (∃ m ∈ ms, m.from_ = r ∧ t = [.send m.to_ m.src]) ∨
      ∃ m ∈ ms, m.to_ = r ∧ t = [.recv m.from_ m.dst])
    (hind : ∀ r ∈ l, (ts r).Pairwise Thread.Indep)
    (htag : ∀ st, P st → ∀ m ∈ ms, (st m.from_).tag = (st m.to_).tag)
    (hQ : ∀ st st', P st → Moved ms st st' → Q st') :
    Triple cap l P (fun r => Proc.fork (ts r)) Q := by
  let session (m : Xfer ι κ) : Session ι κ := .oneWay m.from_ m.to_ m.src m.dst
  have hmoves : (ms.map session).flatMap Session.moves = ms := by
    rw [List.flatMap_map]
    exact List.flatMap_singleton' ms
  refine sessions (ms.map session) ?_ ?_ ?_ ?_ hind ?_ ?_
  · intro s hs
    obtain ⟨m, hm, rfl⟩ := List.mem_map.mp hs
    exact Session.oneWay_runs hcap (hms m hm).ne (hms m hm).length_eq (hms m hm).nodup
  · rw [List.pairwise_map]
    refine hpair.imp fun {m m'} hmm r t ht ht' => hmm ?_
    -- Two threads of a rank that both send, or both receive, have different peers.
    rcases ht with ⟨rfl, rfl⟩ | ⟨rfl, rfl⟩ <;> rcases ht' with ⟨hr, ht⟩ | ⟨hr, ht⟩ <;>
      simp only [session, Session.oneWay, List.cons.injEq, Op.send.injEq, Op.recv.injEq, and_true,
        reduceCtorEq] at hr ht
    · rw [hr, ht.1]
    · rw [hr, ht.1]
  · intro s hs r t ht
    obtain ⟨m, hm, rfl⟩ := List.mem_map.mp hs
    rcases ht with ⟨rfl, rfl⟩ | ⟨rfl, rfl⟩
    · exact ⟨(hms m hm).from_mem, (hts _ (hms m hm).from_mem _).mpr (.inl ⟨m, hm, rfl, rfl⟩)⟩
    · exact ⟨(hms m hm).to_mem, (hts _ (hms m hm).to_mem _).mpr (.inr ⟨m, hm, rfl, rfl⟩)⟩
  · intro r hr t ht
    rcases (hts r hr t).mp ht with ⟨m, hm, rfl, rfl⟩ | ⟨m, hm, rfl, rfl⟩
    · exact .inr ⟨session m, List.mem_map_of_mem hm, .inl ⟨rfl, rfl⟩⟩
    · exact .inr ⟨session m, List.mem_map_of_mem hm, .inr ⟨rfl, rfl⟩⟩
  · intro st hst s hs
    obtain ⟨m, hm, rfl⟩ := List.mem_map.mp hs
    exact htag st hst m hm
  · intro st st' hst hmoved
    rw [hmoves] at hmoved
    exact hQ st st' hst hmoved

/-- A round in which the ranks of `l` are matched in pairs: a rank in `S`
    sends one message to its partner in `R`, the others do nothing. -/
theorem pairs {S R : ι → Prop} [DecidablePred S] [DecidablePred R] {to_ from_ : ι → ι}
    {src dst : ι → List κ} (hcap : 0 < cap) (hl : l.Nodup) (h : Pairing l S R to_ from_)
    (hlen : ∀ b ∈ l, R b → (src (from_ b)).length = (dst b).length)
    (hnd : ∀ b ∈ l, R b → (dst b).Nodup)
    (htag : ∀ st, P st → ∀ b ∈ l, R b → (st (from_ b)).tag = (st b).tag)
    (hQ : ∀ st st', P st → (∀ r, (st' r).aux = (st r).aux) → (∀ r, (st' r).tag = (st r).tag) →
      (∀ b ∈ l, R b → ∀ (j : Nat) (x y : κ), (src (from_ b))[j]? = some x → (dst b)[j]? = some y →
        (st' b).mem y = (st (from_ b)).mem x) →
      (∀ r ∈ l, ∀ a, (R r → a ∉ dst r) → (st' r).mem a = (st r).mem a) → Q st') :
    Triple cap l P (fun r => if S r then Proc.fork [[.send (to_ r) (src r)]] else
      if R r then Proc.fork [[.recv (from_ r) (dst r)]] else .ret ()) Q := by
  let threads (r : ι) : List (Thread ι κ) :=
    if S r then [[.send (to_ r) (src r)]] else [[.recv (from_ r) (dst r)]]
  have hpart : ∀ {r}, r ∈ l.filter (fun r => S r ∨ R r) ↔ r ∈ l ∧ (S r ∨ R r) := by
    simp [List.mem_filter]
  have hround : Triple cap (l.filter fun r => S r ∨ R r) P (fun r => Proc.fork (threads r)) Q := by
    refine messages (pairMessages l R from_ src dst) hcap ?_ ?_ ?_ ?_ ?_ ?_
    · intro m hm
      obtain ⟨b, hb, hb', rfl⟩ := mem_pairMessages.mp hm
      obtain ⟨hfrom, hs, -⟩ := h.source b hb hb'
      exact ⟨h.from_ne hb hb', hlen b hb hb', hnd b hb hb', hpart.mpr ⟨hfrom, .inl hs⟩,
        hpart.mpr ⟨hb, .inr hb'⟩⟩
    · rw [pairMessages, List.pairwise_map]
      exact (hl.filter _).imp fun hne h => hne (Prod.mk.inj h).2
    · intro r hr t
      obtain ⟨hr, hsr⟩ := hpart.mp hr
      by_cases hs : S r
      · simp only [threads, hs, if_true, List.mem_singleton]
        exact h.send_iff hr hs
      · simp only [threads, hs, if_false, List.mem_singleton]
        exact h.recv_iff hr (hsr.resolve_left hs)
    · intro r _
      simp only [threads]
      split <;> exact List.pairwise_singleton _ _
    · intro st hst m hm
      obtain ⟨b, hb, hb', rfl⟩ := mem_pairMessages.mp hm
      exact htag st hst b hb hb'
    · intro st st' hst hmoved
      refine hQ st st' hst hmoved.aux hmoved.tag ?_ ?_
      · intro b hb hb' j x y hx hy
        exact hmoved.moved _ (mem_pairMessages.mpr ⟨b, hb, hb', rfl⟩) j x y hx hy
      · intro r hr a ha
        refine hmoved.frame r a fun m hm hmr => ?_
        obtain ⟨b, hb, hb', rfl⟩ := mem_pairMessages.mp hm
        have hbr : b = r := hmr
        subst hbr
        exact ha hb'
  refine hround.extend (List.filter_subset_self l) ?_ ?_
  · intro r hr
    obtain ⟨-, hsr⟩ := hpart.mp hr
    by_cases hs : S r
    · simp [threads, hs]
    · simp [threads, hs, hsr.resolve_left hs]
  · intro r hr hout
    have : ¬ (S r ∨ R r) := fun h => hout (hpart.mpr ⟨hr, h⟩)
    simp [not_or.mp this]

/-- The threads of a rank that sends one message to every other rank and
    receives one from it. -/
def completeThreads (l : List ι) (src dst : ι → List κ) (r : ι) : List (Thread ι κ) :=
  l.flatMap fun p => if p = r then [] else [[.send p (src p)], [.recv p (dst p)]]

omit [DecidableEq κ] in
theorem mem_completeThreads {src dst : ι → List κ} {r : ι} {t : Thread ι κ} :
    t ∈ completeThreads l src dst r ↔
      ∃ p ∈ l, p ≠ r ∧ (t = [.send p (src p)] ∨ t = [.recv p (dst p)]) := by
  simp only [completeThreads, List.mem_flatMap]
  refine exists_congr fun p => and_congr_right fun _ => ?_
  by_cases hp : p = r
  · simp [hp]
  · simp [hp]

omit [DecidableEq κ] in
theorem completeThreads_indep (hl : l.Nodup) {src dst : ι → List κ} {r : ι}
    (hread : ∀ p ∈ l, p ≠ r → ∀ q ∈ l, q ≠ r → List.Disjoint (src p) (dst q))
    (hwrite : ∀ p ∈ l, p ≠ r → ∀ q ∈ l, q ≠ r → p ≠ q → List.Disjoint (dst p) (dst q)) :
    (completeThreads l src dst r).Pairwise Thread.Indep := by
  refine List.pairwise_flatMap.mpr ⟨fun p hp => ?_, ?_⟩
  · by_cases hpr : p = r
    · simp [hpr]
    · rw [if_neg hpr]
      refine List.pairwise_pair.mpr ⟨?_, ?_, ?_, ?_, ?_⟩ <;> simp [hread p hp hpr p hp hpr]
  · refine List.Pairwise.imp_of_mem (fun {p q} hp hq hpq t ht u hu => ?_) hl
    by_cases hpr : p = r
    · simp [hpr] at ht
    by_cases hqr : q = r
    · simp [hqr] at hu
    rw [if_neg hpr, List.mem_pair] at ht
    rw [if_neg hqr, List.mem_pair] at hu
    have hpq' : q ≠ p := Ne.symm hpq
    rcases ht with rfl | rfl <;> rcases hu with rfl | rfl <;> constructor <;>
      simp [hpq', hread p hp hpr q hq hqr, (hread q hq hqr p hp hpr).symm,
        hwrite p hp hpr q hq hqr hpq]

/-- A round in which every rank of `l` sends one message to every other
    rank: `src r p` from `r` to `p`, which `p` receives at `dst p r`. -/
theorem complete (src dst : ι → ι → List κ) (hcap : 0 < cap) (hl : l.Nodup)
    (hlen : ∀ r ∈ l, ∀ p ∈ l, p ≠ r → (src p r).length = (dst r p).length)
    (hnd : ∀ r ∈ l, ∀ p ∈ l, p ≠ r → (dst r p).Nodup)
    (hread : ∀ r ∈ l, ∀ p ∈ l, p ≠ r → ∀ q ∈ l, q ≠ r → List.Disjoint (src r p) (dst r q))
    (hwrite : ∀ r ∈ l, ∀ p ∈ l, p ≠ r → ∀ q ∈ l, q ≠ r → p ≠ q →
      List.Disjoint (dst r p) (dst r q))
    (htag : ∀ st, P st → ∀ r ∈ l, ∀ p ∈ l, (st r).tag = (st p).tag)
    (hQ : ∀ st st', P st → (∀ r, (st' r).aux = (st r).aux) → (∀ r, (st' r).tag = (st r).tag) →
      (∀ r ∈ l, ∀ p ∈ l, p ≠ r → ∀ (j : Nat) (x y : κ), (src p r)[j]? = some x →
        (dst r p)[j]? = some y → (st' r).mem y = (st p).mem x) →
      (∀ r ∈ l, ∀ a, (∀ p ∈ l, p ≠ r → a ∉ dst r p) → (st' r).mem a = (st r).mem a) → Q st') :
    Triple cap l P (fun r => Proc.fork (completeThreads l (src r) (dst r) r)) Q := by
  let message (r p : ι) : Xfer ι κ := ⟨p, src p r, r, dst r p⟩
  let ms : List (Xfer ι κ) := l.flatMap fun r => (l.filter (· ≠ r)).map (message r)
  have hmem : ∀ {m}, m ∈ ms ↔ ∃ r ∈ l, ∃ p ∈ l, p ≠ r ∧ m = message r p := by
    intro m
    simp only [ms, List.mem_flatMap, List.mem_map, List.mem_filter, decide_eq_true_eq, and_assoc]
    exact exists_congr fun r => and_congr_right fun _ => exists_congr fun p =>
      and_congr_right fun _ => and_congr_right fun _ => eq_comm
  refine messages ms hcap ?_ ?_ ?_ ?_ ?_ ?_
  · intro m hm
    obtain ⟨r, hr, p, hp, hpr, rfl⟩ := hmem.mp hm
    exact ⟨hpr, hlen r hr p hp hpr, hnd r hr p hp hpr, hp, hr⟩
  · refine List.pairwise_flatMap.mpr ⟨fun r _ => ?_, hl.imp fun {r r'} hne m hm m' hm' h => ?_⟩
    · rw [List.pairwise_map]
      exact (hl.filter _).imp fun hne h => hne (Prod.mk.inj h).1
    · obtain ⟨p, -, rfl⟩ := List.mem_map.mp hm
      obtain ⟨p', -, rfl⟩ := List.mem_map.mp hm'
      exact hne (Prod.mk.inj h).2
  · intro r hr t
    rw [mem_completeThreads]
    constructor
    · rintro ⟨p, hp, hpr, rfl | rfl⟩
      · exact .inl ⟨message p r, hmem.mpr ⟨p, hp, r, hr, hpr.symm, rfl⟩, rfl, rfl⟩
      · exact .inr ⟨message r p, hmem.mpr ⟨r, hr, p, hp, hpr, rfl⟩, rfl, rfl⟩
    · rintro (⟨m, hm, hmr, rfl⟩ | ⟨m, hm, hmr, rfl⟩)
      · obtain ⟨q, hq, p, hp, hpq, rfl⟩ := hmem.mp hm
        have hpr : p = r := hmr
        subst hpr
        exact ⟨q, hq, hpq.symm, .inl rfl⟩
      · obtain ⟨q, hq, p, hp, hpq, rfl⟩ := hmem.mp hm
        have hqr : q = r := hmr
        subst hqr
        exact ⟨p, hp, hpq, .inr rfl⟩
  · exact fun r hr => completeThreads_indep hl (hread r hr) (hwrite r hr)
  · intro st hst m hm
    obtain ⟨r, hr, p, hp, hpr, rfl⟩ := hmem.mp hm
    exact htag st hst p hp r hr
  · intro st st' hst hmoved
    refine hQ st st' hst hmoved.aux hmoved.tag ?_ ?_
    · intro r hr p hp hpr j x y hx hy
      exact hmoved.moved _ (hmem.mpr ⟨r, hr, p, hp, hpr, rfl⟩) j x y hx hy
    · intro r hr a ha
      refine hmoved.frame r a fun m hm hmr => ?_
      obtain ⟨q, hq, p, hp, hpq, rfl⟩ := hmem.mp hm
      have hqr : q = r := hmr
      subst hqr
      exact ha p hp hpq

end Triple

/-! ## From triples to runs -/

/-- The ranks in `l` are about to run `p`. -/
def start (l : List ι) (st : ι → Store κ β τ) (p : ι → Proc ι κ β τ Unit) : Net ι κ β τ :=
  quiet fun r => ⟨st r, if r ∈ l then p r else .ret ()⟩

/-- All ranks have returned, and no byte is in flight. -/
def done (st : ι → Store κ β τ) : Net ι κ β τ := quiet fun r => ⟨st r, .ret ()⟩

omit [DecidableEq κ] [DecidableEq ι] in
theorem done_finished (st : ι → Store κ β τ) : (done st : Net ι κ β τ).Finished := fun _ => trivial

/-- **A triple decides every run** of the ranks in `l`. -/
theorem Triple.outcome {l : List ι} {P Q : (ι → Store κ β τ) → Prop}
    {p : ι → Proc ι κ β τ Unit} (h : Triple cap l P p Q) {st : ι → Store κ β τ} (hst : P st) :
    ∃ st', Q st' ∧ Outcome cap (start l st p) (done st') := by
  obtain ⟨st', hst', hreach⟩ := h.reaches_in hst (F := fun _ => id) fun _ =>
    ⟨fun _ _ => rfl, fun _ _ => rfl⟩
  refine ⟨st', hst', outcome_of_run (fun r => ?_) hreach (done_finished st')⟩
  simp only [start, quiet_node]
  split
  · exact h.raceFree r ‹_›
  · trivial

end ForkJoin
