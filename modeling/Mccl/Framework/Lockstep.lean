import Mccl.Framework.Effects
import Mccl.Framework.Exchange

/-! # Ranks in Lockstep

    Programs of all ranks in which pairwise exchanges alternate with local
    computations.

    * `Meets`: the ranks have come to an exchange.
    * `Round`: a program with one exchange, apart from the capacity of the
      channels. `Exchanges`: a sequence of rounds. -/

namespace ForkJoin

variable {κ β τ : Type}

/-! ## Straight programs -/

namespace Proc.Straight

variable {ι α γ : Type} {p : Proc ι κ β τ α} {g : α → Proc ι κ β τ γ}

theorem forks (h : p.Straight) (F : List (Thread ι κ) → Store κ β τ → Prop)
    (s : Store κ β τ) : p.Forks F s := by
  induction p generalizing s with
  | ret a => trivial
  | raise msg => trivial
  | act f k ih => exact ih s (h s) (f s)
  | par ts k => exact h.elim

theorem forks_then {F : List (Thread ι κ) → Store κ β τ → Prop} {Q : α → Store κ β τ → Prop}
    {E : String → Store κ β τ → Prop} {s : Store κ β τ} (h : p.Straight) (hwp : p.wp Q E s)
    (hg : ∀ a s', Q a s' → (g a).Forks F s') : (p >>= g).Forks F s :=
  (h.forks F s).bind hwp hg

end Proc.Straight

variable [DecidableEq κ] {cap : ℕ∞}

/-- The rank comes to the end of its program by itself. -/
def Ends {ι : Type} (p : Proc ι κ β τ Unit) (s : Store κ β τ) : Prop :=
  ∃ s' q, q.Finished ∧ Relation.ReflTransGen Silent (⟨s, p⟩ : Node ι κ β τ) ⟨s', q⟩

theorem Proc.Straight.ends {ι : Type} {p : Proc ι κ β τ Unit} (h : p.Straight) (s : Store κ β τ) :
    Ends p s := by
  induction p generalizing s with
  | ret a => exact ⟨s, .ret a, trivial, .refl⟩
  | raise msg => exact ⟨s, .raise msg, trivial, .refl⟩
  | act f k ih =>
    obtain ⟨s', q, hq, hrun⟩ := ih s (h s) (f s)
    exact ⟨s', q, hq, .head ⟨none, .act⟩ hrun⟩
  | par ts k => exact h.elim

/-- A straight program does what its precondition promises. -/
theorem Proc.Straight.result {ι α : Type} {p : Proc ι κ β τ α} {Q : α → Store κ β τ → Prop}
    {E : String → Store κ β τ → Prop} {s : Store κ β τ} (h : p.Straight) (hwp : p.wp Q E s) :
    (∃ s' a, Computes p s s' a ∧ Q a s') ∨
      ∃ s' msg, E msg s' ∧ ∀ k : α → Proc ι κ β τ Unit,
        Relation.ReflTransGen Silent (⟨s, p >>= k⟩ : Node ι κ β τ) ⟨s', .raise msg⟩ := by
  induction p generalizing s with
  | ret a => exact .inl ⟨s, a, .ret _ _, hwp⟩
  | raise msg => exact .inr ⟨s, msg, hwp, fun _ => .refl⟩
  | act f g ih =>
    rcases ih s (h s) hwp with ⟨s', a, hrun, hQ⟩ | ⟨s', msg, hE, hrun⟩
    · exact .inl ⟨s', a, fun k => .head ⟨none, .act⟩ (hrun k), hQ⟩
    · exact .inr ⟨s', msg, hE, fun k => .head ⟨none, .act⟩ (hrun k)⟩
  | par ts k => exact h.elim

theorem silent_context {ι : Type} {F : Proc ι κ β τ Unit → Proc ι κ β τ Unit} (hF : Context F)
    {n n' : Node ι κ β τ} (h : Relation.ReflTransGen Silent n n') :
    Relation.ReflTransGen Silent (⟨n.store, F n.prog⟩ : Node ι κ β τ) ⟨n'.store, F n'.prog⟩ := by
  induction h with
  | refl => exact .refl
  | tail _ hstep ih =>
    obtain ⟨i, hstep⟩ := hstep
    exact ih.tail ⟨i, hstep.context hF⟩

theorem silent_raceFree {ι : Type} {n n' : Node ι κ β τ}
    (h : Relation.ReflTransGen Silent n n') (hn : n.prog.RaceFree) : n'.prog.RaceFree := by
  induction h with
  | refl => exact hn
  | tail _ hstep ih =>
    obtain ⟨i, hstep⟩ := hstep
    exact hstep.raceFree ih

/-! ## In front of an exchange -/

/-- All ranks are in the same call. -/
abbrev SameTag (w : Nat) (st : Nat → Store κ β τ) : Prop := ∀ r < w, ∀ q < w, (st r).tag = (st q).tag

/-- Of two messages that cross each other, one fits into the channel. -/
def Fits (w : Nat) (cap : ℕ∞) (len : Nat → Nat → Nat) : Prop :=
  ∀ r < w, ∀ q < w, q ≠ r → (len r q : ℕ∞) ≤ cap ∨ (len q r : ℕ∞) ≤ cap

theorem fits_top (w : Nat) (len : Nat → Nat → Nat) : Fits w ⊤ len :=
  fun _ _ _ _ _ => .inl le_top

/-- A rank in front of the exchange. -/
structure Staged (κ β τ : Type) where
  store : Store κ β τ
  /-- What it sends to each rank. -/
  src : Nat → List κ
  /-- Where it receives what each rank sends. -/
  dst : Nat → List κ
  /-- What it does afterwards. -/
  post : Proc Nat κ β τ Unit

/-- Rank `r` gets from `s` to the exchange `x` by local steps. -/
structure Staged.At (w : Nat) (len : Nat → Nat → Nat) (r : Nat) (s : Store κ β τ)
    (p : Proc Nat κ β τ Unit) (x : Staged κ β τ) : Prop where
  pre : Relation.ReflTransGen Silent ⟨s, p⟩
    ⟨x.store, .par (exchangeThreads w r x.src x.dst) x.post⟩
  src_length : ∀ q < w, q ≠ r → (x.src q).length = len r q
  dst_length : ∀ q < w, q ≠ r → (x.dst q).length = len q r
  nodup : ∀ q < w, q ≠ r → (x.dst q).Nodup

/-- Rank `r` gets from `s` to the exchange `x` under its tag. -/
structure Staged.From (w : Nat) (len : Nat → Nat → Nat) (r : Nat) (s : Store κ β τ)
    (p : Proc Nat κ β τ Unit) (x : Staged κ β τ) : Prop extends x.At w len r s p where
  tag : x.store.tag = s.tag

/-- The messages of all ranks have arrived. -/
abbrev Exchanged (w : Nat) (x : Nat → Staged κ β τ) (st : Nat → Store κ β τ) : Prop :=
  Swapped w (fun r => (x r).src) (fun r => (x r).dst) (fun r => (x r).store) st

/-- All ranks get from `st` to the exchange `x` by local steps: `len r q` bytes
    are to go from `r` to `q`. -/
structure Meets (w : Nat) (p : Nat → Proc Nat κ β τ Unit) (len : Nat → Nat → Nat)
    (st : Nat → Store κ β τ) (x : Nat → Staged κ β τ) : Prop where
  staged : ∀ r < w, (x r).At w len r (st r) (p r)
  others : ∀ r, w ≤ r → (x r).store = st r
  tags : ∀ r < w, ∀ q < w, (x r).store.tag = (x q).store.tag

namespace Meets

variable {w : Nat} {p : Nat → Proc Nat κ β τ Unit} {len : Nat → Nat → Nat}
  {st : Nat → Store κ β τ} {x : Nat → Staged κ β τ}

/-- The ranks get there one by one. -/
theorem of_ranks {K : Nat → Staged κ β τ → Prop} (htag : SameTag w st)
    (h : ∀ r < w, ∃ x, Staged.From w len r (st r) (p r) x ∧ K r x) :
    ∃ x, Meets w p len st x ∧ ∀ r < w, K r (x r) := by
  obtain ⟨x, hx, hout⟩ :=
    exists_extend (fun r => (⟨st r, fun _ => [], fun _ => [], .ret ()⟩ : Staged κ β τ)) h
  refine ⟨x, ⟨fun r hr => (hx r hr).1.toAt, fun r hr => ?_, fun r hr q hq => ?_⟩,
    fun r hr => (hx r hr).2⟩
  · rw [hout r (Nat.not_lt.mpr hr)]
  · rw [(hx r hr).1.tag, (hx q hq).1.tag]
    exact htag r hr q hq

theorem context (h : Meets w p len st x) {F : Nat → Proc Nat κ β τ Unit → Proc Nat κ β τ Unit}
    (hF : ∀ r, Context (F r)) :
    Meets w (fun r => F r (p r)) len st fun r => { x r with post := F r (x r).post } where
  staged := by
    intro r hr
    have hx := h.staged r hr
    refine ⟨?_, hx.src_length, hx.dst_length, hx.nodup⟩
    have hpre := silent_context (hF r) hx.pre
    rwa [(hF r).par] at hpre
  others := h.others
  tags := h.tags

theorem bind (h : Meets w p len st x) (k : Nat → Unit → Proc Nat κ β τ Unit) :
    Meets w (fun r => p r >>= k r) len st fun r => { x r with post := (x r).post >>= k r } :=
  h.context fun r => Context.bind (k r)

/-- The ranks in front of the exchange. -/
theorem reaches_start (h : Meets w p len st x) :
    Reaches cap (start (List.range w) st p)
      (start (List.range w) (fun r => (x r).store)
        fun r => .par (exchangeThreads w r (x r).src (x r).dst) (x r).post) := by
  refine silent_all (List.range w) ?_ ?_
  · intro r hr
    simp only [hr, if_true]
    exact (h.staged r (List.mem_range.mp hr)).pre
  · intro r hr
    simp only [hr, if_false]
    rw [h.others r (by simpa using hr)]

/-- If the messages fit, the exchange takes place. -/
theorem exchange (h : Meets w p len st x) (hcap : 0 < cap) (hfit : Fits w cap len)
    (hind : ∀ r < w, (exchangeThreads w r (x r).src (x r).dst).Pairwise Thread.Indep) :
    Triple cap (List.range w) (· = fun r => (x r).store)
      (fun r => .fork (exchangeThreads w r (x r).src (x r).dst)) (Exchanged w x) := by
  have hx := h.staged
  refine .exchange _ _ hcap ?_ (fun r hr => (hx r hr).nodup) hind ?_ ?_ ?_
  · intro r hr q hq hqr
    rw [(hx q hq).src_length r hr hqr.symm, (hx r hr).dst_length q hq hqr]
  · intro r hr q hq hqr
    rw [(hx r hr).src_length q hq hqr, (hx q hq).src_length r hr hqr.symm]
    exact hfit r hr q hq hqr
  · rintro _ rfl
    exact h.tags
  · rintro _ st' rfl hswap
    exact hswap

theorem reaches (h : Meets w p len st x) (hrf : ∀ r < w, (p r).RaceFree) (hcap : 0 < cap)
    (hfit : Fits w cap len) :
    ∃ st₂, Exchanged w x st₂ ∧ (∀ r < w, (x r).post.RaceFree) ∧
      Reaches cap (start (List.range w) st p) (start (List.range w) st₂ fun r => (x r).post) := by
  have hrf' : ∀ r < w, (Proc.par (exchangeThreads w r (x r).src (x r).dst) (x r).post).RaceFree :=
    fun r hr => silent_raceFree (h.staged r hr).pre (hrf r hr)
  obtain ⟨st₂, hst₂, hreach⟩ := (h.exchange hcap hfit fun r hr => (hrf' r hr).1).run rfl
    (k := fun r => if r ∈ List.range w then (x r).post else .ret ()) fun r => by
      split
      · exact (hrf' r (List.mem_range.mp ‹_›)).2
      · trivial
  refine ⟨st₂, hst₂, fun r hr => (hrf' r hr).2, h.reaches_start.trans ?_⟩
  have henter : (fun r => (⟨(x r).store, enter (List.range w)
      (fun r => Proc.fork (exchangeThreads w r (x r).src (x r).dst))
      (fun r => if r ∈ List.range w then (x r).post else .ret ()) r⟩ : Node Nat κ β τ)) =
      fun r => ⟨(x r).store, if r ∈ List.range w then
        .par (exchangeThreads w r (x r).src (x r).dst) (x r).post else .ret ()⟩ := by
    funext r
    by_cases hr : r < w <;> simp [enter, hr, Proc.fork]
  rwa [henter] at hreach

end Meets

/-! ## Rounds -/

/-- All ranks run `p`, in which they exchange messages once: `len r q` bytes
    go from `r` to `q`. Nothing is said about the capacity of the channels. -/
structure Round (w : Nat) (P : (Nat → Store κ β τ) → Prop) (p : Nat → Proc Nat κ β τ Unit)
    (len : Nat → Nat → Nat) (Q : (Nat → Store κ β τ) → Prop) : Prop where
  raceFree : ∀ r < w, (p r).RaceFree
  run : ∀ st, P st → ∃ x, Meets w p len st x ∧ ∀ st₂, Exchanged w x st₂ → ∃ st₃, Q st₃ ∧
    (∀ r < w, Computes (x r).post (st₂ r) (st₃ r) ()) ∧ ∀ r, w ≤ r → st₃ r = st₂ r

/-- A round, from what each rank does before and after the exchange. `K r` is
    what is known of rank `r` in front of it, `R r` what holds in the end. -/
theorem Round.of_ranks {w : Nat} {p : Nat → Proc Nat κ β τ Unit} {len : Nat → Nat → Nat}
    {st : Nat → Store κ β τ} (K : Nat → Staged κ β τ → Prop) (R : Nat → Store κ β τ → Prop)
    (hrf : ∀ r < w, (p r).RaceFree) (htag : SameTag w st)
    (hpre : ∀ r < w, ∃ x, Staged.From w len r (st r) (p r) x ∧ K r x)
    (hpost : ∀ x, (∀ r < w, K r (x r)) → ∀ st₂, Exchanged w x st₂ →
      ∀ r < w, ∃ s, Computes (x r).post (st₂ r) s () ∧ R r s) :
    Round w (· = st) p len fun st' => ∀ r < w, R r (st' r) where
  raceFree := hrf
  run := by
    rintro _ rfl
    obtain ⟨x, hmeets, hx⟩ := Meets.of_ranks htag hpre
    refine ⟨x, hmeets, fun st₂ hst₂ => ?_⟩
    obtain ⟨st₃, hin, hout⟩ := exists_extend st₂ (hpost x hx st₂ hst₂)
    exact ⟨st₃, fun r hr => (hin r hr).2, fun r hr => (hin r hr).1,
      fun r hr => hout r (Nat.not_lt.mpr hr)⟩

/-- Local computations, with a result for every rank. -/
theorem Triple.ranks {w : Nat} {P : (Nat → Store κ β τ) → Prop} {p : Nat → Proc Nat κ β τ Unit}
    {K : Nat → Store κ β τ → Prop} (hrf : ∀ r < w, (p r).RaceFree)
    (h : ∀ st, P st → ∀ r < w, ∃ s, Computes (p r) (st r) s () ∧ K r s) :
    Triple cap (List.range w) P p fun st' => ∀ r < w, K r (st' r) := by
  refine .comp (fun r hr => hrf r (List.mem_range.mp hr)) fun st hst => ?_
  obtain ⟨st', hin, hout⟩ := exists_extend st (h st hst)
  exact ⟨st', fun r hr => (hin r hr).2, fun r hr => (hin r (List.mem_range.mp hr)).1,
    fun r hr => hout r (by simpa using hr)⟩

namespace Round

variable {w : Nat} {P Q : (Nat → Store κ β τ) → Prop} {p : Nat → Proc Nat κ β τ Unit}
  {len : Nat → Nat → Nat}

theorem triple (h : Round w P p len Q) (hcap : 0 < cap) (hfit : Fits w cap len) :
    Triple cap (List.range w) P p Q where
  raceFree := fun r hr => h.raceFree r (List.mem_range.mp hr)
  run := by
    intro st hst k hk
    obtain ⟨x, hmeets, hfinish⟩ := h.run st hst
    have hrf : ∀ r < w,
        (Proc.par (exchangeThreads w r (x r).src (x r).dst) (x r).post).RaceFree :=
      fun r hr => silent_raceFree (hmeets.staged r hr).pre (h.raceFree r hr)
    have hpost : Triple cap (List.range w) (Exchanged w x) (fun r => (x r).post) Q := by
      refine .comp (fun r hr => (hrf r (List.mem_range.mp hr)).2) fun st₂ hst₂ => ?_
      obtain ⟨st₃, hQ, hin, hout⟩ := hfinish st₂ hst₂
      exact ⟨st₃, hQ, fun r hr => hin r (List.mem_range.mp hr),
        fun r hr => hout r (by simpa using hr)⟩
    obtain ⟨st₃, hst₃, hreach⟩ :=
      ((hmeets.exchange hcap hfit fun r hr => (hrf r hr).1).seq hpost).run rfl hk
    refine ⟨st₃, hst₃, .trans (silent_all (List.range w) ?_ ?_) hreach⟩
    · intro r hr
      simp only [enter, hr, if_true]
      exact silent_context (Context.bind _) (hmeets.staged r (List.mem_range.mp hr)).pre
    · intro r hr
      simp only [enter, hr, if_false]
      rw [hmeets.others r (by simpa using hr)]

/-- It is enough to know the round for every single start. -/
theorem of_forall (hrf : ∀ r < w, (p r).RaceFree)
    (h : ∀ st, P st → ∃ Q', Round w (· = st) p len Q' ∧ ∀ st', Q' st' → Q st') :
    Round w P p len Q where
  raceFree := hrf
  run := by
    intro st hst
    obtain ⟨Q', hround, himp⟩ := h st hst
    obtain ⟨x, hmeets, hfinish⟩ := hround.run st rfl
    refine ⟨x, hmeets, fun st₂ hst₂ => ?_⟩
    obtain ⟨st₃, hst₃, hrest⟩ := hfinish st₂ hst₂
    exact ⟨st₃, himp st₃ hst₃, hrest⟩

end Round

/-! ## Programs made of rounds -/

/-- From the stores `st`, the ranks run `body`: `n` rounds, of which round `i`
    moves `len i r q` bytes from `r` to `q`. -/
structure Exchanges (w n : Nat) (len : Nat → Nat → Nat → Nat) (body : Nat → Proc Nat κ β τ Unit)
    (st : Nat → Store κ β τ) (Q : (Nat → Store κ β τ) → Prop) : Prop where
  rounds : ∃ (inv : Nat → (Nat → Store κ β τ) → Prop) (round : Nat → Nat → Proc Nat κ β τ PUnit),
    (∀ r < w, body r = ForM.forM (List.range n) (round r)) ∧ inv 0 st ∧
      (∀ i < n, Round w (inv i) (fun r => round r i) (len i) (inv (i + 1))) ∧
      ∀ st', inv n st' → Q st'

namespace Exchanges

variable {w n : Nat} {len : Nat → Nat → Nat → Nat} {body : Nat → Proc Nat κ β τ Unit}
  {st : Nat → Store κ β τ} {Q : (Nat → Store κ β τ) → Prop}

theorem single {len : Nat → Nat → Nat} (h : Round w (· = st) body len Q) :
    Exchanges w 1 (fun _ => len) body st Q where
  rounds := by
    refine ⟨fun i => if i = 0 then (· = st) else Q, fun r _ => body r, fun r _ => ?_, rfl, ?_,
      fun _ h => h⟩
    · exact (Proc.bind_ret (body r)).symm
    · intro i hi
      obtain rfl : i = 0 := by omega
      exact h

theorem conseq (h : Exchanges w n len body st Q) {Q' : (Nat → Store κ β τ) → Prop}
    (hQ : ∀ st', Q st' → Q' st') : Exchanges w n len body st Q' where
  rounds := by
    obtain ⟨inv, round, hbody, hinit, hround, hfinal⟩ := h.rounds
    exact ⟨inv, round, hbody, hinit, hround, fun st' h => hQ st' (hfinal st' h)⟩

theorem triple (h : Exchanges w n len body st Q) (hcap : 0 < cap) (hfit : ∀ i < n, Fits w cap (len i)) :
    Triple cap (List.range w) (· = st) body Q := by
  obtain ⟨inv, round, hbody, hinit, hround, hfinal⟩ := h.rounds
  have hloop : Triple cap (List.range w) (inv 0) (fun r => ForM.forM (List.range n) (round r))
      (inv n) := .forM inv fun i hi => (hround i hi).triple hcap (hfit i hi)
  refine (hloop.congr fun r hr => hbody r (List.mem_range.mp hr)).conseq ?_ hfinal
  rintro st rfl
  exact hinit

end Exchanges

end ForkJoin
