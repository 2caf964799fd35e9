import Mathlib.Data.List.Nodup
import Mathlib.Data.List.ProdSigma
import Mccl.Framework.Collective

/-! # Pairwise Exchanges

    A fork-join block in which every rank has one thread per other rank, and
    each thread first sends to its peer and then receives from it.

    `Triple.exchange`: the block completes if of any two messages that cross
    each other one fits into the channel. -/

namespace ForkJoin

variable {κ β τ : Type}

/-! ## Threads -/

section threads
variable {ι : Type}

/-- Send first, receive then. A call without bytes is not made. -/
def exchangeThread (p : ι) (src dst : List κ) : Thread ι κ :=
  (if src.isEmpty then [] else [.send p src]) ++ (if dst.isEmpty then [] else [.recv p dst])

variable {p q : ι} {src dst : List κ}

theorem exchangeThread_of_ne (hs : src ≠ []) (hd : dst ≠ []) :
    exchangeThread p src dst = [.send p src, .recv p dst] := by
  simp [exchangeThread, hs, hd]

@[simp] theorem exchangeThread_nil_nil (p : ι) : exchangeThread p ([] : List κ) [] = [] := rfl

@[simp] theorem exchangeThread_cons_nil (p : ι) (a : κ) (src : List κ) :
    exchangeThread p (a :: src) [] = [.send p (a :: src)] := rfl

@[simp] theorem exchangeThread_nil_cons (p : ι) (a : κ) (dst : List κ) :
    exchangeThread p [] (a :: dst) = [.recv p (a :: dst)] := rfl

@[simp] theorem exchangeThread_cons_cons (p : ι) (a b : κ) (src dst : List κ) :
    exchangeThread p (a :: src) (b :: dst) = [.send p (a :: src), .recv p (b :: dst)] := rfl

@[simp] theorem reads_exchangeThread (p : ι) (src dst : List κ) :
    Thread.reads (exchangeThread p src dst) = src := by
  cases src <;> cases dst <;> simp

@[simp] theorem writes_exchangeThread (p : ι) (src dst : List κ) :
    Thread.writes (exchangeThread p src dst) = dst := by
  cases src <;> cases dst <;> simp

theorem sendPeers_exchangeThread (h : q ∈ Thread.sendPeers (exchangeThread p src dst)) : q = p := by
  cases src <;> cases dst <;> simp_all

theorem recvPeers_exchangeThread (h : q ∈ Thread.recvPeers (exchangeThread p src dst)) : q = p := by
  cases src <;> cases dst <;> simp_all

theorem exchangeThread_ne (h : src ≠ [] ∨ dst ≠ []) :
    exchangeThread p src dst ≠ [] := by
  cases src <;> cases dst <;> simp_all

theorem ne_nil_of_length (hlen : src.length = dst.length) (h : src ≠ []) :
    dst ≠ [] := by
  rintro rfl
  exact h (List.length_eq_zero_iff.mp hlen)

/-- A thread that makes a call tells its peer. -/
theorem exchangeThread_peer {src' dst' : List κ}
    (h : exchangeThread p src dst = exchangeThread q src' dst') (hne : src ≠ [] ∨ dst ≠ []) :
    p = q := by
  cases src <;> cases dst <;> cases src' <;> cases dst' <;> simp_all

theorem exchangeThread_indep {src' dst' : List κ} (hpq : p ≠ q)
    (hread : List.Disjoint src dst') (hread' : List.Disjoint dst src')
    (hwrite : List.Disjoint dst dst') :
    Thread.Indep (exchangeThread p src dst) (exchangeThread q src' dst') where
  sends := fun _ h h' => hpq ((sendPeers_exchangeThread h).symm.trans (sendPeers_exchangeThread h'))
  recvs := fun _ h h' => hpq ((recvPeers_exchangeThread h).symm.trans (recvPeers_exchangeThread h'))
  reads_writes := by simpa using hread
  writes_reads := by simpa using hread'
  writes_writes := by simpa using hwrite

end threads

/-- The threads of rank `r`: one per other rank that there is something to
    exchange with. -/
def exchangeThreads (w r : Nat) (src dst : Nat → List κ) : List (Thread Nat κ) :=
  ((List.range w).filter fun p => p ≠ r && !((src p).isEmpty && (dst p).isEmpty)).map fun p =>
    exchangeThread p (src p) (dst p)

variable {w r : Nat} {src dst : Nat → List κ}

theorem mem_exchangeThreads {t : Thread Nat κ} :
    t ∈ exchangeThreads w r src dst ↔
      ∃ p < w, p ≠ r ∧ (src p ≠ [] ∨ dst p ≠ []) ∧ t = exchangeThread p (src p) (dst p) := by
  have hne : ∀ p, (!((src p).isEmpty && (dst p).isEmpty)) = true ↔ src p ≠ [] ∨ dst p ≠ [] := by
    intro p
    cases src p <;> cases dst p <;> simp
  simp only [exchangeThreads, List.mem_map, List.mem_filter, List.mem_range, Bool.and_eq_true,
    decide_eq_true_eq, hne, and_assoc]
  exact exists_congr fun p => and_congr_right fun _ => and_congr_right fun _ =>
    and_congr_right fun _ => eq_comm

theorem exchangeThreads_indep (hread : ∀ p < w, ∀ q < w, p ≠ q → List.Disjoint (src p) (dst q))
    (hwrite : ∀ p < w, ∀ q < w, p ≠ q → List.Disjoint (dst p) (dst q)) :
    (exchangeThreads w r src dst).Pairwise Thread.Indep := by
  rw [exchangeThreads, List.pairwise_map]
  refine List.Pairwise.imp_of_mem (fun {p q} hp hq hpq => ?_) (List.nodup_range.filter _)
  have hp' := List.mem_range.mp (List.mem_filter.mp hp).1
  have hq' := List.mem_range.mp (List.mem_filter.mp hq).1
  exact exchangeThread_indep hpq (hread p hp' q hq' hpq) (hread q hq' p hp' hpq.symm).symm
    (hwrite p hp' q hq' hpq)

theorem exchangeThreads_congr {src' dst' : Nat → List κ}
    (hsrc : ∀ p < w, src p = src' p) (hdst : ∀ p < w, dst p = dst' p) :
    exchangeThreads w r src dst = exchangeThreads w r src' dst' := by
  unfold exchangeThreads
  rw [List.filter_congr fun p hp => by
    rw [hsrc p (List.mem_range.mp hp), hdst p (List.mem_range.mp hp)]]
  refine List.map_congr_left fun p hp => ?_
  have hp := List.mem_range.mp (List.mem_filter.mp hp).1
  rw [hsrc p hp, hdst p hp]

/-- Where every message has bytes, no call and no thread is left out. -/
theorem exchangeThreads_of_ne (hsrc : ∀ p < w, p ≠ r → src p ≠ []) (hdst : ∀ p < w, p ≠ r → dst p ≠ []) :
    exchangeThreads w r src dst =
      ((List.range w).filter (· ≠ r)).map fun p => [.send p (src p), .recv p (dst p)] := by
  have hfilter : ((List.range w).filter fun p => p ≠ r && !((src p).isEmpty && (dst p).isEmpty)) =
      (List.range w).filter (· ≠ r) := by
    refine List.filter_congr fun p hp => ?_
    by_cases hpr : p = r
    · simp [hpr]
    · simp [hpr, hsrc p (List.mem_range.mp hp) hpr]
  rw [exchangeThreads, hfilter]
  refine List.map_congr_left fun p hp => ?_
  obtain ⟨hp, hpr⟩ := List.mem_filter.mp hp
  have hpr : p ≠ r := by simpa using hpr
  exact exchangeThread_of_ne (hsrc p (List.mem_range.mp hp) hpr) (hdst p (List.mem_range.mp hp) hpr)

theorem sendRecv_indep {l : List Nat} (hl : l.Nodup)
    (hread : ∀ p ∈ l, ∀ q ∈ l, p ≠ q → List.Disjoint (src p) (dst q))
    (hwrite : ∀ p ∈ l, ∀ q ∈ l, p ≠ q → List.Disjoint (dst p) (dst q)) :
    (l.map fun p => [Op.send p (src p), .recv p (dst p)]).Pairwise Thread.Indep := by
  rw [List.pairwise_map]
  refine List.Pairwise.imp_of_mem (fun {p q} hp hq hpq => ?_) hl
  constructor <;> simp [hpq.symm, hread p hp q hq hpq, (hread q hq p hp hpq.symm).symm,
    hwrite p hp q hq hpq]

/-! ## The session of two ranks -/

variable [DecidableEq κ] {cap : ℕ∞}

namespace Session
variable {ι : Type} [DecidableEq ι]

/-- What `a` sends to `b` goes to `dst'`, what `b` sends to `a` goes to `dst`. -/
def exchange (a b : ι) (src dst src' dst' : List κ) : Session ι κ :=
  ⟨a, b, exchangeThread b src dst, exchangeThread a src' dst',
    [⟨a, src, b, dst'⟩, ⟨b, src', a, dst⟩]⟩

theorem exchange_run {N : ι → Node ι κ β τ} {a b : ι} {src dst src' dst' : List κ} {i j : Nat}
    {s u : Store κ β τ} {ts us : List (Thread ι κ)} {k l : Proc ι κ β τ Unit} (hcap : 0 < cap)
    (hab : a ≠ b) (hlen : src.length = dst'.length) (hlen' : src'.length = dst.length)
    (hne : src ≠ [] ∨ src' ≠ []) (hfit : (src.length : ℕ∞) ≤ cap ∨ (src'.length : ℕ∞) ≤ cap)
    (ha : N a = ⟨s, .par ts k⟩) (hi : ts[i]? = some (exchangeThread b src dst))
    (hb : N b = ⟨u, .par us l⟩) (hj : us[j]? = some (exchangeThread a src' dst'))
    (htag : s.tag = u.tag) :
    Reaches cap (quiet N)
      (quiet (Function.update
        (Function.update N a ⟨s.writes dst (src'.map u.mem), .par (ts.set i []) k⟩) b
        ⟨u.writes dst' (src.map s.mem), .par (us.set j []) l⟩)) := by
  cases src with
  | nil =>
    obtain rfl : dst' = [] := List.length_eq_zero_iff.mp hlen.symm
    cases src' with
    | nil => simp at hne
    | cons x src' =>
      obtain ⟨y, dst, rfl⟩ := List.exists_cons_of_length_eq_add_one hlen'.symm
      have := rendezvous (c := fun _ _ => []) hcap hab.symm hb hj ha hi hlen' htag.symm rfl
      rw [Function.update_comm hab]
      exact this
  | cons x src =>
    obtain ⟨y, dst', rfl⟩ := List.exists_cons_of_length_eq_add_one hlen.symm
    cases src' with
    | nil =>
      obtain rfl : dst = [] := List.length_eq_zero_iff.mp hlen'.symm
      exact rendezvous (c := fun _ _ => []) hcap hab ha hi hb hj hlen htag rfl
    | cons x' src' =>
      obtain ⟨y', dst, rfl⟩ := List.exists_cons_of_length_eq_add_one hlen'.symm
      rcases hfit with hfit | hfit
      · rw [Function.update_comm hab]
        exact swap_run hcap hab.symm hlen' hlen hfit hb hj ha hi htag.symm
      · exact swap_run hcap hab hlen hlen' hfit ha hi hb hj htag

theorem exchange_runs {a b : ι} {src dst src' dst' : List κ} (hcap : 0 < cap) (hab : a ≠ b)
    (hlen : src.length = dst'.length) (hlen' : src'.length = dst.length) (hnd : dst.Nodup)
    (hnd' : dst'.Nodup) (hne : src ≠ [] ∨ src' ≠ [])
    (hfit : (src.length : ℕ∞) ≤ cap ∨ (src'.length : ℕ∞) ≤ cap) :
    (exchange a b src dst src' dst').Runs β τ cap where
  ne := hab
  ta_ne := exchangeThread_ne (hne.imp_right fun h => ne_nil_of_length hlen' h)
  tb_ne := exchangeThread_ne (hne.symm.imp_right fun h => ne_nil_of_length hlen h)
  src := by simp [exchange, Hits]
  dst := by simp [exchange, Hits]
  run := by
    intro N i j s u ts us k l ha hi hb hj htag
    simp only [exchange] at ha hi hb hj
    refine ⟨s.writes dst (src'.map u.mem), u.writes dst' (src.map s.mem), ?_, ?_⟩
    · exact exchange_run hcap hab hlen hlen' hne hfit ha hi hb hj htag
    · have := moved_swap (fun r => (N r).store) src src' hab hnd hnd'
      simpa only [exchange, ha, hb] using this

end Session

/-! ## The block -/

/-- What every rank sent to `r` is where `r` wanted it, and nothing else
    changed. -/
structure Swapped (w : Nat) (src dst : Nat → Nat → List κ) (st st' : Nat → Store κ β τ) : Prop where
  aux : ∀ r, (st' r).aux = (st r).aux
  tag : ∀ r, (st' r).tag = (st r).tag
  moved : ∀ r < w, ∀ p < w, p ≠ r → ∀ (j : Nat) (x y : κ), (src p r)[j]? = some x →
    (dst r p)[j]? = some y → (st' r).mem y = (st p).mem x
  frame : ∀ r < w, ∀ a, (∀ p < w, p ≠ r → a ∉ dst r p) → (st' r).mem a = (st r).mem a
  others : ∀ r, w ≤ r → st' r = st r

section pairs
variable {w : Nat} {src dst : Nat → Nat → List κ}

/-- The pairs of ranks that have something to exchange. -/
def exchangePairs (w : Nat) (src : Nat → Nat → List κ) : List (Nat × Nat) :=
  ((List.range w).product (List.range w)).filter fun x =>
    x.1 < x.2 ∧ (src x.1 x.2 ≠ [] ∨ src x.2 x.1 ≠ [])

omit [DecidableEq κ] in
theorem mem_exchangePairs {a b : Nat} : (a, b) ∈ exchangePairs w src ↔
    (a < w ∧ b < w) ∧ a < b ∧ (src a b ≠ [] ∨ src b a ≠ []) := by
  simp only [exchangePairs, List.mem_filter, decide_eq_true_eq]
  exact and_congr_left fun _ => by simp [List.mem_range]

/-- What the two ranks of a pair do. -/
def exchangeSession (src dst : Nat → Nat → List κ) (x : Nat × Nat) : Session Nat κ :=
  .exchange x.1 x.2 (src x.1 x.2) (dst x.1 x.2) (src x.2 x.1) (dst x.2 x.1)

omit [DecidableEq κ] in
/-- Whatever rank `r` exchanges with `p` is in the session of the two. -/
theorem exists_exchangeSession (dst : Nat → Nat → List κ) {r p : Nat} (hr : r < w) (hp : p < w) (hpr : p ≠ r)
    (h : src r p ≠ [] ∨ src p r ≠ []) :
    ∃ x ∈ exchangePairs w src,
      (exchangeSession src dst x).Hits r (exchangeThread p (src r p) (dst r p)) ∧
      (⟨p, src p r, r, dst r p⟩ : Xfer Nat κ) ∈ (exchangeSession src dst x).moves := by
  rcases Nat.lt_or_gt_of_ne hpr with hlt | hlt
  · exact ⟨(p, r), mem_exchangePairs.mpr ⟨⟨hp, hr⟩, hlt, h.symm⟩, .inr ⟨rfl, rfl⟩,
      by simp [exchangeSession, Session.exchange]⟩
  · exact ⟨(r, p), mem_exchangePairs.mpr ⟨⟨hr, hp⟩, hlt, h⟩, .inl ⟨rfl, rfl⟩,
      by simp [exchangeSession, Session.exchange]⟩

variable (hlen : ∀ r < w, ∀ p < w, p ≠ r → (src p r).length = (dst r p).length)

omit [DecidableEq κ] in
include hlen in
/-- A rank of a pair makes at least one call. -/
theorem exchange_busy {a b : Nat} (ha : a < w) (hb : b < w) (hab : a ≠ b)
    (h : src a b ≠ [] ∨ src b a ≠ []) : src a b ≠ [] ∨ dst a b ≠ [] :=
  h.imp_right (ne_nil_of_length (hlen a ha b hb hab.symm))

omit [DecidableEq κ] in
include hlen in
theorem exchangeSessions_apart :
    ((exchangePairs w src).map (exchangeSession src dst)).Pairwise Session.Apart := by
  rw [List.pairwise_map]
  refine List.Nodup.pairwise_of_forall_ne ((List.nodup_range.product List.nodup_range).filter _) ?_
  rintro ⟨a, b⟩ hx ⟨a', b'⟩ hx' hne r t ht ht'
  obtain ⟨⟨ha, hb⟩, hlt, hsrc⟩ := mem_exchangePairs.mp hx
  obtain ⟨-, hlt', -⟩ := mem_exchangePairs.mp hx'
  have hab : a ≠ b := Nat.ne_of_lt hlt
  -- The rank and the peer of the thread determine the pair.
  rcases ht with ⟨hr, rfl⟩ | ⟨hr, rfl⟩ <;> rcases ht' with ⟨hr', ht'⟩ | ⟨hr', ht'⟩ <;>
    simp only [exchangeSession, Session.exchange] at hr hr' ht'
  · have := exchangeThread_peer ht' (exchange_busy hlen ha hb hab hsrc)
    exact hne (by rw [this, ← hr', hr])
  · have := exchangeThread_peer ht' (exchange_busy hlen ha hb hab hsrc)
    omega
  · have := exchangeThread_peer ht' (exchange_busy hlen hb ha hab.symm hsrc.symm)
    omega
  · have := exchangeThread_peer ht' (exchange_busy hlen hb ha hab.symm hsrc.symm)
    exact hne (by rw [this, ← hr', hr])

omit [DecidableEq κ] in
include hlen in
/-- The threads of the sessions are those that the ranks fork. -/
theorem exchangeSession_hits {x : Nat × Nat} (hx : x ∈ exchangePairs w src) {r : Nat} {t : Thread Nat κ}
    (ht : (exchangeSession src dst x).Hits r t) :
    r < w ∧ t ∈ exchangeThreads w r (src r) (dst r) := by
  obtain ⟨a, b⟩ := x
  obtain ⟨⟨ha, hb⟩, hlt, hsrc⟩ := mem_exchangePairs.mp hx
  rcases ht with ⟨rfl, rfl⟩ | ⟨rfl, rfl⟩
  · exact ⟨ha, mem_exchangeThreads.mpr
      ⟨b, hb, Nat.ne_of_gt hlt, exchange_busy hlen ha hb (Nat.ne_of_lt hlt) hsrc, rfl⟩⟩
  · exact ⟨hb, mem_exchangeThreads.mpr
      ⟨a, ha, Nat.ne_of_lt hlt, exchange_busy hlen hb ha (Nat.ne_of_gt hlt) hsrc.symm, rfl⟩⟩

omit [DecidableEq κ] in
theorem Moved.swapped {st st' : Nat → Store κ β τ}
    (h : Moved (((exchangePairs w src).map (exchangeSession src dst)).flatMap Session.moves) st st') :
    Swapped w src dst st st' := by
  have hframe : ∀ r a, (∀ p < w, r < w → p ≠ r → a ∉ dst r p) → (st' r).mem a = (st r).mem a := by
    intro r a ha
    refine h.frame r a fun x hx hxr => ?_
    obtain ⟨s, hs, hxs⟩ := List.mem_flatMap.mp hx
    obtain ⟨⟨p, q⟩, hpq, rfl⟩ := List.mem_map.mp hs
    obtain ⟨⟨hp, hq⟩, hlt, -⟩ := mem_exchangePairs.mp hpq
    rcases List.mem_pair.mp hxs with rfl | rfl
    · have hxr : q = r := hxr
      exact hxr ▸ ha p hp (hxr ▸ hq) (by omega)
    · have hxr : p = r := hxr
      exact hxr ▸ ha q hq (hxr ▸ hp) (by omega)
  refine ⟨h.aux, h.tag, ?_, fun r _ a ha => hframe r a fun p hp _ hpr => ha p hp hpr, ?_⟩
  · intro r hr p hp hpr j x y hx hy
    have hne : src p r ≠ [] := by
      intro hnil
      simp [hnil] at hx
    obtain ⟨z, hz, -, hmove⟩ := exists_exchangeSession dst hr hp hpr (.inr hne)
    exact h.moved _ (List.mem_flatMap.mpr ⟨_, List.mem_map_of_mem hz, hmove⟩) j x y hx hy
  · intro r hr
    have hmem : (st' r).mem = (st r).mem :=
      funext fun a => hframe r a fun _ _ hr' => absurd hr' (by omega)
    have haux := h.aux r
    have htag := h.tag r
    cases hst' : st' r
    cases hst : st r
    simp_all

end pairs

/-- All ranks exchange messages: `src r p` goes from `r` to `p`, which
    receives it at `dst p r`. Of two messages that cross each other, one has
    to fit into the channel. -/
theorem Triple.exchange {P Q : (Nat → Store κ β τ) → Prop} (src dst : Nat → Nat → List κ)
    (hcap : 0 < cap) (hlen : ∀ r < w, ∀ p < w, p ≠ r → (src p r).length = (dst r p).length)
    (hnd : ∀ r < w, ∀ p < w, p ≠ r → (dst r p).Nodup)
    (hind : ∀ r < w, (exchangeThreads w r (src r) (dst r)).Pairwise Thread.Indep)
    (hfit : ∀ r < w, ∀ p < w, p ≠ r →
      ((src r p).length : ℕ∞) ≤ cap ∨ ((src p r).length : ℕ∞) ≤ cap)
    (htag : ∀ st, P st → ∀ r < w, ∀ p < w, (st r).tag = (st p).tag)
    (hQ : ∀ st st', P st → Swapped w src dst st st' → Q st') :
    Triple cap (List.range w) P (fun r => .fork (exchangeThreads w r (src r) (dst r))) Q := by
  refine sessions ((exchangePairs w src).map (exchangeSession src dst)) ?_ (exchangeSessions_apart hlen)
    ?_ ?_ (fun r hr => hind r (List.mem_range.mp hr)) ?_ fun st st' hst h => hQ st st' hst h.swapped
  · intro s hs
    obtain ⟨⟨a, b⟩, hx, rfl⟩ := List.mem_map.mp hs
    obtain ⟨⟨ha, hb⟩, hlt, hne⟩ := mem_exchangePairs.mp hx
    have hab : a ≠ b := Nat.ne_of_lt hlt
    exact Session.exchange_runs hcap hab (hlen b hb a ha hab) (hlen a ha b hb hab.symm)
      (hnd a ha b hb hab.symm) (hnd b hb a ha hab) hne (hfit a ha b hb hab.symm)
  · intro s hs r t ht
    obtain ⟨x, hx, rfl⟩ := List.mem_map.mp hs
    obtain ⟨hr, ht⟩ := exchangeSession_hits hlen hx ht
    exact ⟨List.mem_range.mpr hr, ht⟩
  · intro r hr t ht
    rw [List.mem_range] at hr
    obtain ⟨p, hp, hpr, hne, rfl⟩ := mem_exchangeThreads.mp ht
    have hsrc : src r p ≠ [] ∨ src p r ≠ [] :=
      hne.imp_right fun hdst => ne_nil_of_length (hlen r hr p hp hpr).symm hdst
    obtain ⟨x, hx, hhit, -⟩ := exists_exchangeSession dst hr hp hpr hsrc
    exact .inr ⟨exchangeSession src dst x, List.mem_map_of_mem hx, hhit⟩
  · intro st hst s hs
    obtain ⟨⟨a, b⟩, hx, rfl⟩ := List.mem_map.mp hs
    obtain ⟨⟨ha, hb⟩, -⟩ := mem_exchangePairs.mp hx
    exact htag st hst a ha b hb

end ForkJoin
