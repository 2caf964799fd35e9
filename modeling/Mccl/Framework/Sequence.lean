import Mccl.Framework.Dispatch

/-! # Sequences of Calls

    All ranks of a group make calls that belong together: call `k` of one rank
    meets call `k` of the others.

    * `Triple.andThen`, `Triple.loop`: programs one after the other.
    * `Triple.keeps`: what the programs keep can be added to a postcondition.
    * `Triple.call`: the triple of one call, from the triple of its program.
    * `Triple.matched`: if the calls have a triple, no call gets bytes of
      another one, as long as inline calls wait for the engines.
    * `Triple.engines`: if everything runs on the engines, every run comes to
      an end, and the end is that of the triple. -/

namespace ForkJoin

variable {ι κ β τ : Type}

/-! ## Calls one after the other -/

theorem inOrder_append (ps qs : List (Nat × Proc ι κ β τ Unit)) :
    inOrder (ps ++ qs) = inOrder ps >>= fun _ => inOrder qs := by
  induction ps with
  | nil => rfl
  | cons x ps ih =>
    simp only [List.cons_append, inOrder, ih, Proc.bind_assoc]

theorem Proc.wp_of_forall {α : Type} {Q : α → Store κ β τ → Prop} {E : String → Store κ β τ → Prop}
    (p : Proc ι κ β τ α) (hQ : ∀ a s, Q a s) (hE : ∀ msg s, E msg s) (s : Store κ β τ) : p.wp Q E s := by
  induction p generalizing s with
  | ret a => exact hQ a s
  | raise msg => exact hE msg s
  | act f k ih => exact ih s (f s)
  | par ts k ih => exact fun m => ih _

/-- A sequence of calls returns, whatever the calls raise. -/
theorem inOrder_returns (ps : List (Nat × Proc ι κ β τ Unit)) (s : Store κ β τ) :
    (inOrder ps).wp (fun _ _ => True) (fun _ _ => False) s := by
  induction ps generalizing s with
  | nil => trivial
  | cons x ps ih =>
    rw [inOrder, Proc.wp_bind, Proc.wp_modify, Proc.wp_bind, guarded, Proc.wp_tryCatch]
    -- Whether the call returns or raises, the rest follows.
    exact Proc.wp_of_forall _ (fun _ => ih) (fun _ => ih) _

theorem inOrder_straight {ps : List (Nat × Proc ι κ β τ Unit)} (h : ∀ x ∈ ps, x.2.Straight) :
    (inOrder ps).Straight := by
  induction ps with
  | nil => trivial
  | cons x ps ih =>
    exact .bind (.modify _) fun _ => .bind ((h x (by simp)).tryCatch fun _ => trivial) fun _ =>
      ih fun y hy => h y (by simp [hy])

/-- What the calls of a rank do, one after the other. -/
def inTurn (calls : List (Nat × Call ι κ β τ)) : Proc ι κ β τ Unit :=
  inOrder (calls.map fun c => (c.1, c.2.prog))

theorem inTurn_append (cs ds : List (Nat × Call ι κ β τ)) :
    inTurn (cs ++ ds) = inTurn cs >>= fun _ => inTurn ds := by
  rw [inTurn, List.map_append, inOrder_append]
  rfl

/-- A member that has finished is where its sequential rank is. -/
theorem Follows.finished {m : Member ι κ β τ} {n : Node ι κ β τ} (h : Follows m n)
    (hm : m.Finished) : ∃ t, n = ⟨⟨m.mem, m.aux, t⟩, .ret ()⟩ := by
  obtain ⟨t, hn⟩ := h.idle hm.engine hm.caller
  refine ⟨t, ?_⟩
  rw [hn, Member.todo, hm.queue, hm.calls]
  rfl

variable [DecidableEq ι] [DecidableEq κ] {cap : ℕ∞}

/-! ## Capacities -/

/-- A channel without bound admits every step. -/
theorem Step.top {x y : Net ι κ β τ} (h : Step cap x y) : Step ⊤ x y := by
  cases h with
  | mk hn hc =>
    refine .mk hn ?_
    cases hc with
    | tau => exact .tau _
    | out hroom => exact .out (lt_of_lt_of_le hroom le_top)
    | inp hhead => exact .inp hhead

theorem reaches_top {x y : Net ι κ β τ} (h : Reaches cap x y) : Reaches ⊤ x y :=
  Relation.ReflTransGen.mono (fun _ _ => Step.top) x y h

/-! ## Triples -/

namespace Triple

variable {l : List ι} {Q : (ι → Store κ β τ) → Prop} {p : ι → Proc ι κ β τ Unit}
  {st : ι → Store κ β τ}

/-- What comes next may depend on the stores that the first program leaves. -/
theorem andThen {q : ι → Proc ι κ β τ Unit} {R : (ι → Store κ β τ) → Prop}
    (hp : Triple cap l (· = st) p Q) (hq : ∀ st₁, Q st₁ → Triple cap l (· = st₁) q R) :
    Triple cap l (· = st) (fun r => p r >>= fun _ => q r) R := by
  -- There is a run of `p`, so some triple of `q` applies.
  obtain ⟨st₁, hst₁, -⟩ := hp.run rfl (k := fun _ => .ret ()) fun _ => trivial
  have hall : Triple cap l Q q R :=
    ⟨(hq st₁ hst₁).raceFree, fun hst _ hk => (hq _ hst).run rfl hk⟩
  exact hp.seq hall

theorem loop {body : ι → Nat → Proc ι κ β τ PUnit} {n : Nat} (inv : Nat → (ι → Store κ β τ) → Prop)
    (hst : inv 0 st)
    (h : ∀ i < n, ∀ st₁, inv i st₁ → Triple cap l (· = st₁) (fun r => body r i) (inv (i + 1))) :
    Triple cap l (· = st) (fun r => ForM.forM (List.range n) (body r)) (inv n) := by
  have key : ∀ m i, i + m = n → ∀ st₁, inv i st₁ →
      Triple cap l (· = st₁) (fun r => ForM.forM (List.range' i m) (body r)) (inv n) := by
    -- Induction on the number of iterations that are left.
    intro m
    induction m with
    | zero =>
      rintro i rfl st₁ hst₁
      refine (skip l _).conseq (fun _ h => h) ?_
      rintro _ rfl
      exact hst₁
    | succ m ih =>
      intro i hi st₁ hst₁
      have hrest := (h i (by omega) st₁ hst₁).andThen fun st₂ hst₂ => ih (i + 1) (by omega) st₂ hst₂
      refine hrest.congr fun r _ => ?_
      rw [List.range'_succ, List.forM_cons]
  simp only [List.range_eq_range']
  exact key n 0 (by omega) st hst

/-- What the programs keep holds in the end. -/
theorem keeps {R : Store κ β τ → Store κ β τ → Prop} (h : Triple cap l (· = st) p Q) (hR : Blind R)
    (hp : ∀ r ∈ l, (p r).Keeps R) :
    Triple cap l (· = st) p fun st' => Q st' ∧ ∀ r ∈ l, R (st r) (st' r) where
  raceFree := h.raceFree
  run := by
    rintro _ rfl k _
    -- The run of the programs alone is also one in front of `k`.
    obtain ⟨st', hst', hreach⟩ := h.run rfl (k := fun _ => .ret ()) fun _ => trivial
    refine ⟨st', ⟨hst', fun r hr => ?_⟩, ?_⟩
    · have hkeeps : (enter l p (fun _ => .ret ()) r).Keeps R := by
        rw [enter, if_pos hr]
        exact (hp r hr).bind fun _ => trivial
      exact (keeps_reaches hR hreach (r := r) hkeeps).1
    · have henter : enter l p k = fun r => enter l p (fun _ => .ret ()) r >>= fun _ => k r := by
        funext r
        by_cases hr : r ∈ l
        · simp [enter, hr]
        · simp [enter, hr]
      rw [henter]
      exact reaches_context (F := fun r q => q >>= fun _ => k r) (fun r => Context.bind _) hreach

/-- Programs without communication that return. -/
theorem straight (hp : ∀ r ∈ l, (p r).Straight)
    (hret : ∀ r ∈ l, ∀ s, (p r).wp (fun _ _ => True) (fun _ _ => False) s) :
    Triple cap l (· = st) p fun _ => True := by
  refine .comp (fun r hr => (hp r hr).raceFree) ?_
  rintro st rfl
  -- Every rank of `l` ends where its program takes it, the others where they are.
  have hall : ∀ r ∈ l, ∃ s, Computes (p r) (st r) s () := by
    intro r hr
    rcases (hp r hr).result (hret r hr (st r)) with ⟨s, _, hrun, -⟩ | ⟨_, _, hfalse, -⟩
    · exact ⟨s, hrun⟩
    · exact hfalse.elim
  obtain ⟨st', hin, hout⟩ := exists_extend st hall
  exact ⟨st', trivial, hin, hout⟩

/-! ## One call -/

/-- The stores when the ranks of `l` have begun call `k`. -/
def begun (l : List ι) (k : Nat) (st : ι → Store κ β τ) (r : ι) : Store κ β τ :=
  if r ∈ l then setTag k (st r) else st r

theorem call (k : Nat) (h : Triple cap l (· = begun l k st) p Q) :
    Triple cap l (· = st) (fun r => inOrder [(k, p r)]) Q := by
  -- The tag is set, then the program runs with its exceptions caught.
  have htag : Triple cap l (· = st) (fun _ => .modify (setTag k)) (· = begun l k st) := by
    refine .comp (fun _ _ => .modify _) ?_
    rintro _ rfl
    refine ⟨_, rfl, fun r hr => ?_, fun r hr => if_neg hr⟩
    rw [begun, if_pos hr]
    exact Computes.modify _ _
  have hrun : Triple cap l (· = begun l k st) (fun r => guarded (p r)) Q :=
    h.tryCatch fun _ _ _ => trivial
  exact (htag.seq hrun).congr fun r _ => congrArg _ (funext fun _ => Proc.bind_ret (guarded (p r)))

end Triple

/-! ## The runs of the group -/

section group
variable {l : List ι} {Q : (ι → Store κ β τ) → Prop} {st : ι → Store κ β τ}
  {calls : ι → List (Nat × Call ι κ β τ)}

omit [DecidableEq κ] in
theorem start_inTurn (hl : ∀ r ∉ l, calls r = []) :
    start l st (fun r => inTurn (calls r)) = sequential st calls := by
  unfold start sequential
  congr 1
  funext r
  by_cases hr : r ∈ l
  · rw [if_pos hr]
    rfl
  · rw [if_neg hr, hl r hr]
    rfl

/-- No call gets bytes of another one, as long as inline calls wait for the
    engines. -/
theorem Triple.matched (h : Triple ⊤ l (· = st) (fun r => inTurn (calls r)) Q)
    (hl : ∀ r ∉ l, calls r = []) {g : Group ι κ β τ}
    (hreach : Group.ReachesWaiting cap (Group.init st calls) g) : g.matched := by
  obtain ⟨st', -, hout⟩ := h.outcome rfl
  rw [start_inTurn hl] at hout
  -- The group follows the sequential net, every run of which is on the way to `st'`.
  obtain ⟨x, hx, hsim⟩ := (simulates_init st calls).reaches hreach
  exact hsim.matched.mp (matched_of_reaches (hout.reaches (reaches_top hx)) trivial)

/-- Then every run comes to an end. -/
theorem Triple.waiting_acc (h : Triple cap l (· = st) (fun r => inTurn (calls r)) Q)
    (hl : ∀ r ∉ l, calls r = []) :
    Acc (fun b a => Group.Step cap a b ∧ Waits a b) (Group.init st calls) := by
  obtain ⟨st', -, hout⟩ := h.outcome rfl
  rw [start_inTurn hl] at hout
  exact (simulates_init st calls).terminates l hl hout.terminates

theorem Group.EngineOnly.acc {g : Group ι κ β τ} (h : g.EngineOnly)
    (hacc : Acc (fun b a => Group.Step cap a b ∧ Waits a b) g) :
    Acc (fun b a => Group.Step cap a b) g := by
  induction hacc with
  | intro g _ ih => exact ⟨g, fun g' hstep => ih g' ⟨hstep, h.waits⟩ (h.step hstep)⟩

/-- If everything runs on the engines, every run of the group comes to the end
    that the triple describes. -/
theorem Triple.engines (h : Triple cap l (· = st) (fun r => inTurn (calls r)) Q)
    (hl : ∀ r ∉ l, calls r = []) (hsubmit : ∀ r, ∀ c ∈ calls r, ∃ t, c.2 = .submit t) :
    Acc (fun b a => Group.Step cap a b) (Group.init st calls) ∧
    ∀ g, Group.Reaches cap (Group.init st calls) g →
      (g.Finished ∨ ∃ g', Group.Step cap g g') ∧
      (g.Finished → ∃ st', Q st' ∧ ∀ r, (g.member r).mem = (st' r).mem ∧
        (g.member r).aux = (st' r).aux) := by
  obtain ⟨st', hst', hout⟩ := h.outcome rfl
  rw [start_inTurn hl] at hout
  have hengine : (Group.init st calls).EngineOnly := .init hsubmit
  refine ⟨hengine.acc (h.waiting_acc hl), fun g hreach => ?_⟩
  -- A group of engines is stuck only where the sequential net is, and that is at the end.
  obtain ⟨hg, hwait⟩ := hengine.reaches hreach
  obtain ⟨x, hx, hsim'⟩ := (simulates_init st calls).reaches hwait
  refine ⟨hg.progress hsim' ?_, fun hfin => ⟨st', hst', fun r => ?_⟩⟩
  · by_cases hx' : x.Finished
    · rw [hout.unique hx hx']
      exact .inl fun _ => rfl
    · exact .inr (hout.progress hx hx')
  · have hnodes : ∀ q, ∃ t, x.node q = ⟨⟨(g.member q).mem, (g.member q).aux, t⟩, .ret ()⟩ :=
      fun q => (hsim'.follows q).finished (hfin q)
    have hx' : x = done st' := hout.unique hx fun q => by
      obtain ⟨t, ht⟩ := hnodes q
      rw [ht]
      trivial
    obtain ⟨t, ht⟩ := hnodes r
    rw [hx'] at ht
    have hstore := congrArg Node.store ht
    exact ⟨(congrArg Store.mem hstore).symm, (congrArg Store.aux hstore).symm⟩

end group

/-! ## Overtaking -/

omit [DecidableEq κ] in
theorem Group.setMember_setMember (g : Group ι κ β τ) (r : ι) (m m' : Member ι κ β τ) :
    (g.setMember r m).setMember r m' = g.setMember r m' := by
  simp [Group.setMember]

theorem Group.reaches_task {g : Group ι κ β τ} {r : ι} {k : Nat} {t : Proc ι κ β τ Unit}
    {cs : List (Nat × Call ι κ β τ)} (hc : (g.member r).caller = .ret ())
    (he : (g.member r).engine = .ret ()) (hq : (g.member r).queue = [])
    (hcalls : (g.member r).calls = (k, .submit t) :: cs) :
    Group.Reaches cap g (g.setMember r (((g.member r).submitted k t cs).taken k t [])) := by
  let m := (g.member r).submitted k t cs
  have hm : (g.setMember r m).member r = m := g.setMember_self r m
  have hsubmit : Group.Step cap g (g.setMember r m) := .submit hc hcalls
  have htake : Group.Step cap (g.setMember r m)
      ((g.setMember r m).setMember r (((g.setMember r m).member r).taken k t [])) :=
    .take (by rw [hm]; exact he) (by rw [hm]; simp [m, Member.submitted, hq])
  rw [hm, Group.setMember_setMember] at htake
  exact (Relation.ReflTransGen.single hsubmit).tail htake

/-- The first call is in the queue when the second one starts inline. -/
theorem Group.reaches_inline {g : Group ι κ β τ} {r : ι} {k l : Nat} {t p : Proc ι κ β τ Unit}
    {cs : List (Nat × Call ι κ β τ)} (hc : (g.member r).caller = .ret ())
    (hcalls : (g.member r).calls = (k, .submit t) :: (l, .inline p) :: cs) :
    Group.Reaches cap g
      (g.setMember r (((g.member r).submitted k t ((l, .inline p) :: cs)).inlined l p cs)) := by
  let m := (g.member r).submitted k t ((l, .inline p) :: cs)
  have hm : (g.setMember r m).member r = m := g.setMember_self r m
  have hsubmit : Group.Step cap g (g.setMember r m) := .submit hc hcalls
  have hinline : Group.Step cap (g.setMember r m)
      ((g.setMember r m).setMember r (((g.setMember r m).member r).inlined l p cs)) :=
    .inline (by rw [hm]; exact hc) (by rw [hm]; rfl)
  rw [hm, Group.setMember_setMember] at hinline
  exact (Relation.ReflTransGen.single hsubmit).tail hinline

/-- Rank `a` has a task in its queue when it starts an inline call, and the bytes
    of the call go to the task's counterpart on rank `b`. -/
theorem overtakes {st : ι → Store κ β τ} {calls : ι → List (Nat × Call ι κ β τ)} {a b : ι} {k l : Nat}
    {t u p q q' : Proc ι κ β τ Unit} {cs ds : List (Nat × Call ι κ β τ)} {x y : κ} {xs ys : List κ}
    (hcap : 0 < cap) (hab : a ≠ b) (hkl : l ≠ k)
    (ha : calls a = (k, .submit t) :: (l, .inline p) :: cs) (hb : calls b = (k, .submit u) :: ds)
    (hp : guarded p = .par [[.send b (x :: xs)]] q) (hu : guarded u = .par [[.recv a (y :: ys)]] q') :
    ∃ g, Group.Reaches cap (Group.init st calls) g ∧ ¬ g.matched := by
  let g₀ := Group.init st calls
  let ma := ((g₀.member a).submitted k t ((l, .inline p) :: cs)).inlined l p cs
  let mb := ((g₀.member b).submitted k u ds).taken k u []
  -- Rank `a` does not wait for its engine, and rank `b` starts on the task.
  have hstart : Group.Reaches cap g₀ ((g₀.setMember a ma).setMember b mb) := by
    have hother : (g₀.setMember a ma).member b = g₀.member b := g₀.setMember_ne ma hab.symm
    have htask : Group.Reaches cap (g₀.setMember a ma) ((g₀.setMember a ma).setMember b
        ((((g₀.setMember a ma).member b).submitted k u ds).taken k u [])) :=
      Group.reaches_task (by rw [hother]; rfl) (by rw [hother]; rfl) (by rw [hother]; rfl)
        (by rw [hother]; exact hb)
    rw [hother] at htask
    exact (Group.reaches_inline rfl ha).trans htask
  let g₁ := (g₀.setMember a ma).setMember b mb
  have hma : g₁.member a = ma := ((g₀.setMember a ma).setMember_ne mb hab).trans (g₀.setMember_self a ma)
  have hmb : g₁.member b = mb := (g₀.setMember a ma).setMember_self b mb
  -- The first byte of the inline call is the one that the task receives.
  have hsend : NodeStep ((g₁.member a).node .caller) (some 0) (.out b (l, (st a).mem x))
      ⟨⟨(st a).mem, (st a).aux, l⟩, .par [[.send b xs]] q⟩ := by
    rw [hma]
    simp only [ma, Member.node, Member.inlined, hp]
    exact .thread rfl (.sendByte b x xs [])
  obtain ⟨g₂, hout, hm, hchan, hlock⟩ : ∃ g₂, Group.Step cap g₁ g₂ ∧ g₂.member b = mb ∧
      g₂.chan a b = [(l, (st a).mem x)] ∧ g₂.locks.recv b a = none :=
    ⟨_, .run hsend (.out hcap) (.out (.inl rfl)), (Function.update_of_ne hab.symm ..).trans hmb,
      setChan_self .., rfl⟩
  have hrecv : NodeStep ((g₂.member b).node .engine) (some 0) (.inp a (l, (st a).mem x))
      ⟨(⟨(st b).mem, (st b).aux, k⟩ : Store κ β τ).write y ((st a).mem x), .par [[.recv a ys]] q'⟩ := by
    rw [hm]
    simp only [mb, Member.node, Member.taken, hu]
    exact .thread rfl (.recvByte a y ys [] _)
  refine ⟨_, (hstart.tail hout).tail (.run hrecv (.inp hchan) (.inp (.inl hlock))), fun hmatched => hkl ?_⟩
  have htag : l = ((g₂.member b).node .engine).store.tag := hmatched.2
  rwa [hm] at htag

end ForkJoin
