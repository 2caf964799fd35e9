import Mathlib.Data.List.Pairwise
import Mathlib.Tactic.Ring
import Mccl.Framework.ForkJoin

/-! # Schedules of Fork-Join Nets

    Lemmas that build complete runs of a net out of large moves. By
    `outcome_of_run` one complete run is all that is needed about a
    race-free net, so these lemmas choose the most convenient schedule.

    * `put`, `get`: a whole `send` into a channel with enough room, a whole
      `recv` from a channel that holds the bytes.
    * `rendezvous`: a `send` and the matching `recv`, byte by byte, in a
      channel of any positive capacity.
    * `exchange`: any list of pairwise moves between quiet nets, in which
      no byte is in flight.
    * `join_all`, `silent_all`: local steps of all ranks. -/

namespace ForkJoin

open Function

variable {ι κ β τ : Type}

/-! ## Nets -/

def net (N : ι → Node ι κ β τ) (c : ι → ι → List (Nat × β)) : Net ι κ β τ := ⟨N, c, True⟩

/-- No byte is in flight. -/
def quiet (N : ι → Node ι κ β τ) : Net ι κ β τ := net N fun _ _ => []

@[simp] theorem net_node (N : ι → Node ι κ β τ) (c : ι → ι → List (Nat × β)) :
    (net N c).node = N := rfl

@[simp] theorem quiet_node (N : ι → Node ι κ β τ) : (quiet N).node = N := rfl

@[simp] theorem quiet_chan (N : ι → Node ι κ β τ) (p q : ι) : (quiet N).chan p q = [] := rfl

@[simp] theorem quiet_matched (N : ι → Node ι κ β τ) : (quiet N).matched = True := rfl

/-! ## What a round moves -/

/-- The bytes at `src` of rank `from_` go to `dst` of rank `to_`. -/
structure Xfer (ι κ : Type) where
  from_ : ι
  src : List κ
  to_ : ι
  dst : List κ

/-- The transfers `xs`, all at once: every target holds what its source
    held before, and nothing else changed. -/
structure Moved (xs : List (Xfer ι κ)) (st st' : ι → Store κ β τ) : Prop where
  aux : ∀ r, (st' r).aux = (st r).aux
  tag : ∀ r, (st' r).tag = (st r).tag
  moved : ∀ x ∈ xs, ∀ (j : Nat) (a b : κ), x.src[j]? = some a → x.dst[j]? = some b →
    (st' x.to_).mem b = (st x.from_).mem a
  frame : ∀ (r : ι) (a : κ), (∀ x ∈ xs, x.to_ = r → a ∉ x.dst) → (st' r).mem a = (st r).mem a

theorem Moved.refl (st : ι → Store κ β τ) : Moved ([] : List (Xfer ι κ)) st st :=
  ⟨fun _ => rfl, fun _ => rfl, by simp, fun _ _ _ => rfl⟩

/-- Two batches of transfers make one, if the second neither reads nor
    overwrites what the first wrote. -/
theorem Moved.append {xs ys : List (Xfer ι κ)} {st st₁ st₂ : ι → Store κ β τ}
    (h₁ : Moved xs st st₁) (h₂ : Moved ys st₁ st₂)
    (hread : ∀ x ∈ xs, ∀ y ∈ ys, x.to_ = y.from_ → List.Disjoint x.dst y.src)
    (hwrite : ∀ x ∈ xs, ∀ y ∈ ys, x.to_ = y.to_ → List.Disjoint x.dst y.dst) :
    Moved (xs ++ ys) st st₂ where
  aux := fun r => (h₂.aux r).trans (h₁.aux r)
  tag := fun r => (h₂.tag r).trans (h₁.tag r)
  moved := by
    intro x hx j a b ha hb
    rcases List.mem_append.mp hx with hx | hx
    · rw [h₂.frame x.to_ b fun y hy hyx hby =>
        hwrite x hx y hy hyx.symm (List.mem_of_getElem? hb) hby]
      exact h₁.moved x hx j a b ha hb
    · rw [h₂.moved x hx j a b ha hb]
      exact h₁.frame x.from_ a fun y hy hyx hay => hread y hy x hx hyx hay (List.mem_of_getElem? ha)
  frame := by
    intro r a h
    rw [h₂.frame r a fun y hy => h y (by simp [hy]), h₁.frame r a fun x hx => h x (by simp [hx])]

/-! ## Sessions -/

/-- Thread `ta` of rank `a` and thread `tb` of rank `b`, which talk to each
    other, with the transfers that result when both have run. -/
structure Session (ι κ : Type) where
  a : ι
  b : ι
  ta : Thread ι κ
  tb : Thread ι κ
  moves : List (Xfer ι κ)

/-- Thread `t` of rank `r` is one of the two threads of the session. -/
def Session.Hits (p : Session ι κ) (r : ι) (t : Thread ι κ) : Prop :=
  (r = p.a ∧ t = p.ta) ∨ (r = p.b ∧ t = p.tb)

def Proc.mapThreads (f : Thread ι κ → Thread ι κ) : Proc ι κ β τ Unit → Proc ι κ β τ Unit
  | .par ts k => .par (ts.map f) k
  | p => p

/-- The threads of the sessions have run to their end. -/
noncomputable def clear (ps : List (Session ι κ)) (r : ι) (t : Thread ι κ) : Thread ι κ :=
  open Classical in if ∃ p ∈ ps, p.Hits r t then [] else t

/-- The sessions have no thread in common. -/
def Session.Apart (p q : Session ι κ) : Prop := ∀ r t, p.Hits r t → ¬ q.Hits r t

/-- Both threads of the session have been forked. -/
structure Session.Ready (p : Session ι κ) (N : ι → Node ι κ β τ) : Prop where
  forked : ∀ r t, p.Hits r t → ∃ ts k, (N r).prog = .par ts k ∧ t ∈ ts
  tags : (N p.a).store.tag = (N p.b).store.tag

section clear
variable {ps : List (Session ι κ)} {r : ι} {t : Thread ι κ} {p : Session ι κ}

theorem clear_of_hits (hp : p ∈ ps) (h : p.Hits r t) : clear ps r t = [] :=
  if_pos ⟨p, hp, h⟩

theorem clear_of_not (h : ∀ p ∈ ps, ¬ p.Hits r t) : clear ps r t = t :=
  if_neg fun ⟨p, hp, hhit⟩ => h p hp hhit

theorem clear_empty (ps : List (Session ι κ)) (r : ι) : clear ps r [] = [] := by
  unfold clear
  split <;> rfl

theorem clear_clear (p : Session ι κ) (ps : List (Session ι κ)) (r : ι) (t : Thread ι κ) :
    clear ps r (clear [p] r t) = clear (p :: ps) r t := by
  by_cases hp : p.Hits r t
  · rw [clear_of_hits (List.mem_singleton_self p) hp, clear_empty,
      clear_of_hits (List.mem_cons_self ..) hp]
  · rw [clear_of_not (by simpa using hp : ∀ q ∈ [p], ¬ q.Hits r t)]
    by_cases hps : ∃ q ∈ ps, q.Hits r t
    · obtain ⟨q, hq, hhit⟩ := hps
      rw [clear_of_hits hq hhit, clear_of_hits (List.mem_cons_of_mem _ hq) hhit]
    · push Not at hps
      rw [clear_of_not hps, clear_of_not (by simpa [hp] using hps)]

theorem mapThreads_clear_nil (r : ι) (k : Proc ι κ β τ Unit) : k.mapThreads (clear [] r) = k := by
  cases k with
  | par ts k =>
    have hid : clear ([] : List (Session ι κ)) r = id := funext fun t => clear_of_not (by simp)
    simp [Proc.mapThreads, hid]
  | _ => rfl

theorem mapThreads_clear_cons (p : Session ι κ) (ps : List (Session ι κ)) (r : ι)
    (k : Proc ι κ β τ Unit) :
    (k.mapThreads (clear [p] r)).mapThreads (clear ps r) = k.mapThreads (clear (p :: ps) r) := by
  cases k with
  | par ts k => simp [Proc.mapThreads, clear_clear]
  | _ => rfl

/-- A thread that uses a channel is not independent of itself, so it occurs
    once in a race-free block. -/
theorem set_eq_map_clear {ts : List (Thread ι κ)} {i : Nat}
    (hind : ts.Pairwise Thread.Indep) (hi : ts[i]? = some t) (ht : t ≠ [])
    (hhit : ∀ u, p.Hits r u ↔ u = t) : ts.set i [] = ts.map (clear [p] r) := by
  refine List.ext_getElem? fun j => ?_
  rw [List.getElem?_map]
  by_cases hij : i = j
  · subst hij
    have hlen : i < ts.length := (List.getElem?_eq_some_iff.mp hi).1
    rw [hi, List.getElem?_set_self hlen]
    exact congrArg some (clear_of_hits (List.mem_singleton_self p) ((hhit t).mpr rfl)).symm
  · rw [List.getElem?_set_ne hij]
    cases hj : ts[j]? with
    | none => rfl
    | some u =>
      have hne : u ≠ t := by
        rintro rfl
        have hself := indep_of_ne hind hi hj hij
        cases u with
        | nil => exact ht rfl
        | cons op u =>
          cases op with
          | send q src => exact hself.sends (a := q) (by simp) (by simp)
          | recv q dst => exact hself.recvs (a := q) (by simp) (by simp)
      exact congrArg some (clear_of_not (by simpa [hhit] using hne)).symm

theorem Session.hits_a (hne : p.a ≠ p.b) (u : Thread ι κ) :
    p.Hits p.a u ↔ u = p.ta := by
  simp [Session.Hits, hne]

theorem Session.hits_b (hne : p.a ≠ p.b) (u : Thread ι κ) :
    p.Hits p.b u ↔ u = p.tb := by
  simp [Session.Hits, hne.symm]

end clear

variable [DecidableEq κ]

/-- Write the bytes `vs` to the addresses `dst`, one after the other. -/
def Store.writes (s : Store κ β τ) : List κ → List β → Store κ β τ
  | a :: dst, v :: vs => (s.write a v).writes dst vs
  | _, _ => s

@[simp] theorem Store.writes_cons (s : Store κ β τ) (a : κ) (dst : List κ) (v : β) (vs : List β) :
    s.writes (a :: dst) (v :: vs) = (s.write a v).writes dst vs := rfl

@[simp] theorem Store.writes_tag (s : Store κ β τ) (dst : List κ) (vs : List β) :
    (s.writes dst vs).tag = s.tag := by
  induction dst generalizing s vs with
  | nil => simp [Store.writes]
  | cons a dst ih => cases vs <;> simp [Store.writes, ih]

@[simp] theorem Store.writes_aux (s : Store κ β τ) (dst : List κ) (vs : List β) :
    (s.writes dst vs).aux = s.aux := by
  induction dst generalizing s vs with
  | nil => simp [Store.writes]
  | cons a dst ih => cases vs <;> simp [Store.writes, ih]

theorem Store.writes_mem_frame (s : Store κ β τ) {dst : List κ} (vs : List β) {a : κ}
    (h : a ∉ dst) : (s.writes dst vs).mem a = s.mem a := by
  induction dst generalizing s vs with
  | nil => simp [Store.writes]
  | cons b dst ih =>
    rw [List.mem_cons, not_or] at h
    cases vs with
    | nil => rfl
    | cons v vs => rw [Store.writes, ih _ _ h.2, Store.write_mem_ne _ _ h.1]

theorem Store.writes_mem (s : Store κ β τ) {dst : List κ} {vs : List β} (hnd : dst.Nodup)
    {j : Nat} {a : κ} {v : β} (ha : dst[j]? = some a) (hv : vs[j]? = some v) :
    (s.writes dst vs).mem a = v := by
  induction dst generalizing s vs j with
  | nil => simp at ha
  | cons b dst ih =>
    rw [List.nodup_cons] at hnd
    cases vs with
    | nil => simp at hv
    | cons w vs =>
      cases j with
      | zero =>
        obtain rfl : b = a := by simpa using ha
        obtain rfl : w = v := by simpa using hv
        rw [Store.writes, Store.writes_mem_frame _ _ hnd.1, Store.write_mem_self]
      | succ j => exact ih _ hnd.2 (by simpa using ha) (by simpa using hv)

theorem Store.map_writes (s : Store κ β τ) {dst : List κ} {vs : List β} (hnd : dst.Nodup)
    (hlen : vs.length = dst.length) : dst.map (s.writes dst vs).mem = vs := by
  refine List.ext_getElem (by simp [hlen]) fun j hj hj' => ?_
  rw [List.getElem_map]
  exact s.writes_mem hnd (List.getElem?_eq_getElem _) (List.getElem?_eq_getElem _)

/-! ## Whole calls -/

section calls
variable [DecidableEq ι] {cap : ℕ∞} {N : ι → Node ι κ β τ} {c : ι → ι → List (Nat × β)}
  {r q : ι} {i : Nat} {s : Store κ β τ} {ts : List (Thread ι κ)} {k : Proc ι κ β τ Unit}
  {t : Thread ι κ}

theorem step_net {c' : ι → ι → List (Nat × β)} {i : Option Nat} {e : Event ι β}
    {m n : Node ι κ β τ} (hm : N r = m) (hn : NodeStep m i e n) (hc : ChanStep cap r e c c')
    (hf : e.Fits m.store.tag) : Step cap (net N c) (net (update N r n) c') :=
  .of_eq hm hn hc (by simp [net, hf])

theorem silent_step {i : Option Nat} {m n : Node ι κ β τ} (hm : N r = m)
    (hn : NodeStep m i .tau n) : Step cap (net N c) (net (update N r n) c) :=
  step_net hm hn (.tau _) trivial

/-- A whole `send` into a channel that has room for it. -/
theorem put {src : List κ} (hN : N r = ⟨s, .par ts k⟩) (hi : ts[i]? = some (.send q src :: t))
    (hroom : ((c r q).length + src.length : ℕ∞) ≤ cap) :
    Reaches cap (net N c) (net (update N r ⟨s, .par (ts.set i t) k⟩)
      (setChan c r q (c r q ++ src.map fun a => (s.tag, s.mem a)))) := by
  induction src generalizing N c ts with
  | nil =>
    rw [List.map_nil, List.append_nil, setChan_eq_self rfl]
    exact .single (silent_step hN (.thread hi (.sendDone ..)))
  | cons a src ih =>
    have hlt : ((c r q).length : ℕ∞) < cap := by
      refine lt_of_lt_of_le ?_ hroom
      rw [List.length_cons]
      exact_mod_cast Nat.lt_add_of_pos_right (Nat.succ_pos _)
    refine .head (step_net hN (.thread hi (.sendByte ..)) (.out hlt) trivial) ?_
    have hlen : i < ts.length := (List.getElem?_eq_some_iff.mp hi).1
    have hroom' : ((setChan c r q (c r q ++ [(s.tag, s.mem a)]) r q).length + src.length : ℕ∞) ≤
        cap := by
      rw [setChan_self]
      refine le_trans (le_of_eq ?_) hroom
      simp only [List.length_append, List.length_cons, List.length_nil]
      push_cast
      ring
    have hrest := ih (update_self r ⟨s, .par (ts.set i (.send q src :: t)) k⟩ N)
      (by simp [hlen]) hroom'
    simpa using hrest

/-- A whole `recv` from a channel that holds the bytes. -/
theorem get {dst : List κ} {vs : List β}
    {l : List (Nat × β)} (hN : N q = ⟨s, .par ts k⟩) (hi : ts[i]? = some (.recv r dst :: t))
    (hc : c r q = vs.map (Prod.mk s.tag) ++ l) (hlen : dst.length = vs.length) :
    Reaches cap (net N c) (net (update N q ⟨s.writes dst vs, .par (ts.set i t) k⟩)
      (setChan c r q l)) := by
  induction dst generalizing N c ts s vs with
  | nil =>
    obtain rfl : vs = [] := List.length_eq_zero_iff.mp hlen.symm
    rw [setChan_eq_self (by simpa using hc)]
    exact .single (silent_step hN (.thread hi (.recvDone ..)))
  | cons a dst ih =>
    cases vs with
    | nil => simp at hlen
    | cons v vs =>
      refine .head (step_net hN (.thread hi (.recvByte r a dst t (s.tag, v))) (.inp hc) rfl) ?_
      have hi' : i < ts.length := (List.getElem?_eq_some_iff.mp hi).1
      have hrest := ih (c := setChan c r q (vs.map (Prod.mk s.tag) ++ l)) (s := s.write a v)
        (update_self q ⟨s.write a v, .par (ts.set i (.recv r dst :: t)) k⟩ N)
        (by simp [hi']) (setChan_self ..) (by simpa using hlen)
      simpa using hrest

/-- A `send` and the matching `recv`, byte by byte: one byte in flight is
    enough. -/
theorem rendezvous {j : Nat} {u : Store κ β τ} {us : List (Thread ι κ)}
    {l : Proc ι κ β τ Unit} {src dst : List κ} {t' : Thread ι κ} (hcap : 0 < cap)
    (hrq : r ≠ q) (hr : N r = ⟨s, .par ts k⟩) (hi : ts[i]? = some (.send q src :: t))
    (hq : N q = ⟨u, .par us l⟩) (hj : us[j]? = some (.recv r dst :: t'))
    (hlen : src.length = dst.length) (htag : s.tag = u.tag) (hc : c r q = []) :
    Reaches cap (net N c)
      (net (update (update N r ⟨s, .par (ts.set i t) k⟩) q
        ⟨u.writes dst (src.map s.mem), .par (us.set j t') l⟩) c) := by
  induction src generalizing N ts us u dst with
  | nil =>
    obtain rfl : dst = [] := List.length_eq_zero_iff.mp hlen.symm
    have hq' : update N r ⟨s, .par (ts.set i t) k⟩ q = ⟨u, .par us l⟩ := by
      rw [update_of_ne hrq.symm, hq]
    exact .head (silent_step hr (.thread hi (.sendDone ..)))
      (.single (silent_step hq' (.thread hj (.recvDone ..))))
  | cons a src ih =>
    cases dst with
    | nil => simp at hlen
    | cons b dst =>
      have hi' : i < ts.length := (List.getElem?_eq_some_iff.mp hi).1
      have hj' : j < us.length := (List.getElem?_eq_some_iff.mp hj).1
      let n : Node ι κ β τ := ⟨s, .par (ts.set i (.send q src :: t)) k⟩
      let m : Node ι κ β τ := ⟨u.write b (s.mem a), .par (us.set j (.recv r dst :: t')) l⟩
      have hsend : Step cap (net N c)
          (net (update N r n) (setChan c r q [(u.tag, s.mem a)])) := by
        refine step_net hr (.thread hi (.sendByte ..)) (.out_of_eq hc (by simpa using hcap) ?_) trivial
        rw [htag, List.nil_append]
      have hq' : update N r n q = ⟨u, .par us l⟩ := by
        rw [update_of_ne hrq.symm, hq]
      have hback : c = setChan (setChan c r q [(u.tag, s.mem a)]) r q [] := by
        rw [setChan_setChan, setChan_eq_self hc]
      have hrecv : Step cap (net (update N r n) (setChan c r q [(u.tag, s.mem a)]))
          (net (update (update N r n) q m) c) :=
        step_net hq' (.thread hj (.recvByte r b dst t' (u.tag, s.mem a)))
          (.inp_of_eq (setChan_self ..) hback) rfl
      have hr'' : update (update N r n) q m r = n := by
        rw [update_of_ne hrq, update_self]
      have hi'' : (ts.set i (.send q src :: t))[i]? = some (.send q src :: t) := by simp [hi']
      have hj'' : (us.set j (.recv r dst :: t'))[j]? = some (.recv r dst :: t') := by simp [hj']
      have hq'' : update (update N r n) q m q =
          ⟨u.write b (s.mem a), .par (us.set j (.recv r dst :: t')) l⟩ := update_self ..
      have hrest := ih hr'' hi'' hq'' hj'' (by simpa using hlen) (by simpa using htag)
      refine .head hsend (.head hrecv ?_)
      simpa [update_comm hrq] using hrest

end calls

/-! ## Runs of a session -/

namespace Session

/-- Both threads can be run to their end, starting and ending with empty
    channels, and this performs exactly the transfers. -/
structure Runs [DecidableEq ι] (β τ : Type) (cap : ℕ∞) (p : Session ι κ) : Prop where
  ne : p.a ≠ p.b
  ta_ne : p.ta ≠ []
  tb_ne : p.tb ≠ []
  src : ∀ x ∈ p.moves, ∃ t, p.Hits x.from_ t ∧ x.src ⊆ Thread.reads t
  dst : ∀ x ∈ p.moves, ∃ t, p.Hits x.to_ t ∧ x.dst ⊆ Thread.writes t
  run : ∀ {N : ι → Node ι κ β τ} {i j : Nat} {s u : Store κ β τ} {ts us : List (Thread ι κ)}
    {k l : Proc ι κ β τ Unit}, N p.a = ⟨s, .par ts k⟩ → ts[i]? = some p.ta →
    N p.b = ⟨u, .par us l⟩ → us[j]? = some p.tb → s.tag = u.tag →
    ∃ s' u', Reaches cap (quiet N)
        (quiet (Function.update (Function.update N p.a ⟨s', .par (ts.set i []) k⟩) p.b
          ⟨u', .par (us.set j []) l⟩)) ∧
      Moved p.moves (fun r => (N r).store)
        (Function.update (Function.update (fun r => (N r).store) p.a s') p.b u')

variable [DecidableEq ι]

/-- One thread sends, the other receives. -/
def oneWay (a b : ι) (src dst : List κ) : Session ι κ :=
  ⟨a, b, [.send b src], [.recv a dst], [⟨a, src, b, dst⟩]⟩

theorem moved_writes (st : ι → Store κ β τ) {a b : ι} {dst : List κ} (src : List κ) (hab : a ≠ b)
    (hnd : dst.Nodup) :
    Moved [⟨a, src, b, dst⟩] st
      (update (update st a (st a)) b ((st b).writes dst (src.map (st a).mem))) := by
  rw [update_eq_self]
  constructor
  · intro r
    by_cases hr : r = b
    · subst hr; simp
    · simp [hr]
  · intro r
    by_cases hr : r = b
    · subst hr; simp
    · simp [hr]
  · intro x hx j c d hc hd
    obtain rfl := List.mem_singleton.mp hx
    have hv : (src.map (st a).mem)[j]? = some ((st a).mem c) := by
      rw [List.getElem?_map, hc]; rfl
    simpa using Store.writes_mem (st b) hnd hd hv
  · intro r c h
    by_cases hr : r = b
    · subst hr
      simpa using Store.writes_mem_frame (st r) _ (h ⟨a, src, r, dst⟩ (by simp) rfl)
    · simp [hr]

theorem oneWay_runs {cap : ℕ∞} {a b : ι} {src dst : List κ} (hcap : 0 < cap) (hab : a ≠ b)
    (hlen : src.length = dst.length) (hnd : dst.Nodup) :
    (oneWay a b src dst).Runs β τ cap where
  ne := hab
  ta_ne := by simp [oneWay]
  tb_ne := by simp [oneWay]
  src := by simp [oneWay, Hits]
  dst := by simp [oneWay, Hits]
  run := by
    intro N i j s u ts us k l ha hi hb hj htag
    simp only [oneWay] at ha hb
    refine ⟨s, u.writes dst (src.map s.mem), ?_, ?_⟩
    · exact rendezvous hcap hab ha hi hb hj hlen htag rfl
    · have := moved_writes (fun r => (N r).store) src hab hnd
      simpa only [oneWay, ha, hb] using this

/-- Both threads send first and receive then: the rank whose bytes fit into the
    channel puts them there first; then the other rank's send meets its receive. -/
theorem swap_run {cap : ℕ∞} {N : ι → Node ι κ β τ} {a b : ι} {src dst src' dst' : List κ}
    {i j : Nat} {s u : Store κ β τ} {ts us : List (Thread ι κ)} {k l : Proc ι κ β τ Unit}
    (hcap : 0 < cap) (hab : a ≠ b) (hlen : src.length = dst'.length)
    (hlen' : src'.length = dst.length) (hfit : (src'.length : ℕ∞) ≤ cap)
    (ha : N a = ⟨s, .par ts k⟩) (hi : ts[i]? = some [.send b src, .recv b dst])
    (hb : N b = ⟨u, .par us l⟩) (hj : us[j]? = some [.send a src', .recv a dst'])
    (htag : s.tag = u.tag) :
    Reaches cap (quiet N)
      (quiet (update
        (update N a ⟨s.writes dst (src'.map u.mem), .par (ts.set i []) k⟩) b
        ⟨u.writes dst' (src.map s.mem), .par (us.set j []) l⟩)) := by
  have hi' : i < ts.length := (List.getElem?_eq_some_iff.mp hi).1
  have hj' : j < us.length := (List.getElem?_eq_some_iff.mp hj).1
  let c : ι → ι → List (Nat × β) :=
    setChan (fun _ _ => []) b a (src'.map fun x => (u.tag, u.mem x))
  let n₁ : Node ι κ β τ := ⟨u, .par (us.set j [.recv a dst']) l⟩
  have hput : Reaches cap (quiet N) (net (update N b n₁) c) := by
    have : Reaches cap _ _ := put (c := fun _ _ => []) hb hj (by simpa using hfit)
    simpa [c, n₁, quiet] using this
  let n₂ : Node ι κ β τ := ⟨s, .par (ts.set i [.recv b dst]) k⟩
  let n₃ : Node ι κ β τ := ⟨u.writes dst' (src.map s.mem), .par (us.set j []) l⟩
  have hmeet : Reaches cap (net (update N b n₁) c)
      (net (update (update N a n₂) b n₃) c) := by
    have ha₁ : update N b n₁ a = ⟨s, .par ts k⟩ := by
      rw [update_of_ne hab, ha]
    have hj₁ : (us.set j [.recv a dst'])[j]? = some [.recv a dst'] := by simp [hj']
    have hc₁ : c a b = [] := setChan_ne _ _ fun h => hab (Prod.mk.inj h).1
    have := rendezvous hcap hab ha₁ hi (update_self b n₁ N) hj₁ hlen htag hc₁
    rw [update_comm hab.symm, update_idem] at this
    simpa [n₃] using this
  have hget : Reaches cap (net (update (update N a n₂) b n₃) c)
      (quiet (update
        (update N a ⟨s.writes dst (src'.map u.mem), .par (ts.set i []) k⟩) b n₃)) := by
    have ha₂ : update (update N a n₂) b n₃ a = n₂ := by
      rw [update_of_ne hab, update_self]
    have hi₂ : (ts.set i [.recv b dst])[i]? = some [.recv b dst] := by simp [hi']
    have hc₂ : c b a = (src'.map u.mem).map (Prod.mk s.tag) ++ [] := by
      simp [c, htag, Function.comp_def]
    have : Reaches cap _ _ := get ha₂ hi₂ hc₂ (by simpa using hlen'.symm)
    have hq : setChan c b a [] = fun _ _ => [] := by
      rw [setChan_setChan, setChan_eq_self rfl]
    rw [hq, update_comm hab.symm, update_idem] at this
    simpa [quiet] using this
  exact hput.trans (hmeet.trans hget)

theorem moved_swap (st : ι → Store κ β τ) {a b : ι} {dst dst' : List κ} (src src' : List κ)
    (hab : a ≠ b) (hnd : dst.Nodup) (hnd' : dst'.Nodup) :
    Moved [⟨a, src, b, dst'⟩, ⟨b, src', a, dst⟩] st
      (update (update st a ((st a).writes dst (src'.map (st b).mem))) b
        ((st b).writes dst' (src.map (st a).mem))) := by
  constructor
  · intro r
    by_cases hb : r = b
    · subst hb; simp
    · by_cases ha : r = a
      · subst ha; simp [hb]
      · simp [ha, hb]
  · intro r
    by_cases hb : r = b
    · subst hb; simp
    · by_cases ha : r = a
      · subst ha; simp [hb]
      · simp [ha, hb]
  · intro x hx j c d hc hd
    rcases List.mem_pair.mp hx with rfl | rfl
    · have hv : (src.map (st a).mem)[j]? = some ((st a).mem c) := by
        rw [List.getElem?_map, hc]; rfl
      simpa using Store.writes_mem (st b) hnd' hd hv
    · have hv : (src'.map (st b).mem)[j]? = some ((st b).mem c) := by
        rw [List.getElem?_map, hc]; rfl
      simpa [hab] using Store.writes_mem (st a) hnd hd hv
  · intro r c h
    by_cases hb : r = b
    · subst hb
      simpa using Store.writes_mem_frame (st r) _ (h ⟨a, src, r, dst'⟩ (by simp) rfl)
    · by_cases ha : r = a
      · subst ha
        simpa [hb] using Store.writes_mem_frame (st r) _ (h ⟨b, src', r, dst⟩ (by simp) rfl)
      · simp [ha, hb]

end Session

/-! ## Rounds -/

section rounds
variable {ps : List (Session ι κ)} {r : ι} {t : Thread ι κ} {p : Session ι κ} {cap : ℕ∞}
  {N : ι → Node ι κ β τ} [DecidableEq ι]

theorem Session.Runs.exec (hp : p.Runs β τ cap) (hready : p.Ready N) (hrf : (quiet N).RaceFree) :
    ∃ N', Reaches cap (quiet N) (quiet N') ∧
      (∀ r, (N' r).prog = (N r).prog.mapThreads (clear [p] r)) ∧
      Moved p.moves (fun r => (N r).store) (fun r => (N' r).store) := by
  obtain ⟨ts, k, ha, hta⟩ := hready.forked p.a p.ta (.inl ⟨rfl, rfl⟩)
  obtain ⟨us, l, hb, htb⟩ := hready.forked p.b p.tb (.inr ⟨rfl, rfl⟩)
  obtain ⟨i, hi⟩ := List.getElem?_of_mem hta
  obtain ⟨j, hj⟩ := List.getElem?_of_mem htb
  have ha' : N p.a = ⟨(N p.a).store, .par ts k⟩ := by rw [← ha]
  have hb' : N p.b = ⟨(N p.b).store, .par us l⟩ := by rw [← hb]
  have hta' : ts.Pairwise Thread.Indep := by have := hrf p.a; rw [quiet_node, ha] at this; exact this.1
  have htb' : us.Pairwise Thread.Indep := by have := hrf p.b; rw [quiet_node, hb] at this; exact this.1
  obtain ⟨s', u', hreach, hmoved⟩ := hp.run ha' hi hb' hj hready.tags
  refine ⟨_, hreach, fun r => ?_, ?_⟩
  · by_cases hrb : r = p.b
    · subst hrb
      rw [update_self, hb, set_eq_map_clear htb' hj hp.tb_ne (p.hits_b hp.ne)]
      rfl
    · rw [update_of_ne hrb]
      by_cases hra : r = p.a
      · subst hra
        rw [update_self, ha, set_eq_map_clear hta' hi hp.ta_ne (p.hits_a hp.ne)]
        rfl
      · rw [update_of_ne hra]
        have hnot : clear [p] r = id := by
          funext t
          exact clear_of_not (by simp [Session.Hits, hra, hrb])
        cases (N r).prog <;> simp [Proc.mapThreads, hnot]
  · convert hmoved using 1
    funext r
    by_cases hrb : r = p.b
    · subst hrb; simp
    · by_cases hra : r = p.a
      · subst hra; simp [hrb]
      · simp [hra, hrb]

/-- **Exchange.** Sessions that are all ready and use different threads can
    be run one after the other. -/
theorem exchange (hruns : ∀ p ∈ ps, p.Runs β τ cap) (hapart : ps.Pairwise Session.Apart)
    (hready : ∀ p ∈ ps, p.Ready N) (hrf : (quiet N).RaceFree) :
    ∃ N', Reaches cap (quiet N) (quiet N') ∧
      (∀ r, (N' r).prog = (N r).prog.mapThreads (clear ps r)) ∧
      Moved (ps.flatMap Session.moves) (fun r => (N r).store) (fun r => (N' r).store) := by
  induction ps generalizing N with
  | nil => exact ⟨N, .refl, fun r => (mapThreads_clear_nil r _).symm, .refl _⟩
  | cons p ps ih =>
    rw [List.pairwise_cons] at hapart
    have hp := hruns p (by simp)
    obtain ⟨N₁, hreach₁, hprog₁, hmoved₁⟩ := hp.exec (hready p (by simp)) hrf
    have hrf₁ : (quiet N₁).RaceFree :=
      Rewriting.invariant_reaches Net.RaceFree Step.raceFree hrf hreach₁
    have hready₁ : ∀ q ∈ ps, q.Ready N₁ := by
      intro q hq
      refine ⟨fun r t ht => ?_, ?_⟩
      · -- The thread of `q` is still there: it is not one of the threads of `p`.
        obtain ⟨ts, k, hts, hmem⟩ := (hready q (by simp [hq])).forked r t ht
        have hkeep : clear [p] r t = t :=
          clear_of_not (by simpa using fun h => hapart.1 q hq r t h ht)
        refine ⟨ts.map (clear [p] r), k, by rw [hprog₁, hts]; rfl, ?_⟩
        exact List.mem_map.mpr ⟨t, hmem, hkeep⟩
      · have := (hready q (by simp [hq])).tags
        rw [hmoved₁.tag, hmoved₁.tag]
        exact this
    obtain ⟨N', hreach, hprog, hmoved⟩ :=
      ih (fun q hq => hruns q (by simp [hq])) hapart.2 hready₁ hrf₁
    -- Two sessions meet on a rank in two different threads of it.
    have hind : ∀ q ∈ ps, ∀ r t u, p.Hits r t → q.Hits r u → Thread.Indep t u := by
      intro q hq r t u ht hu
      obtain ⟨ts, k, hts, hmem⟩ := (hready p (by simp)).forked r t ht
      obtain ⟨us, l, hus, hmem'⟩ := (hready q (by simp [hq])).forked r u hu
      obtain ⟨rfl, rfl⟩ : ts = us ∧ k = l := by simpa [hts] using hus
      have hpw : ts.Pairwise Thread.Indep := by have := hrf r; rw [quiet_node, hts] at this; exact this.1
      have hne : t ≠ u := by
        rintro rfl
        exact hapart.1 q hq r t ht hu
      exact hpw.forall hmem hmem' hne
    refine ⟨N', hreach₁.trans hreach, fun r => ?_, ?_⟩
    · rw [hprog, hprog₁, mapThreads_clear_cons]
    · refine hmoved₁.append hmoved ?_ ?_
      · intro x hx y hy hxy
        obtain ⟨q, hq, hyq⟩ := List.mem_flatMap.mp hy
        obtain ⟨t, ht, hxt⟩ := hp.dst x hx
        obtain ⟨u, hu, hyu⟩ := (hruns q (by simp [hq])).src y hyq
        rw [hxy] at ht
        exact fun a ha ha' => (hind q hq _ t u ht hu).writes_reads (hxt ha) (hyu ha')
      · intro x hx y hy hxy
        obtain ⟨q, hq, hyq⟩ := List.mem_flatMap.mp hy
        obtain ⟨t, ht, hxt⟩ := hp.dst x hx
        obtain ⟨u, hu, hyu⟩ := (hruns q (by simp [hq])).dst y hyq
        rw [hxy] at ht
        exact fun a ha ha' => (hind q hq _ t u ht hu).writes_writes (hxt ha) (hyu ha')

/-! ### Local steps -/

/-- A step of one rank that does not touch the channels. -/
def Silent (n n' : Node ι κ β τ) : Prop := ∃ i, NodeStep n i .tau n'

theorem silent_reaches {c : ι → ι → List (Nat × β)}
    {n : Node ι κ β τ} (h : Relation.ReflTransGen Silent (N r) n) :
    Reaches cap (net N c) (net (update N r n) c) := by
  induction h with
  | refl => rw [update_eq_self]
  | tail _ hstep ih =>
    obtain ⟨i, hstep⟩ := hstep
    refine ih.tail ?_
    have : Step cap _ _ := silent_step (c := c) (update_self r _ N) hstep
    rwa [update_idem] at this

/-- Ranks take their local steps one after the other. -/
theorem silent_all {N' : ι → Node ι κ β τ} {c : ι → ι → List (Nat × β)} (l : List ι)
    (hin : ∀ r ∈ l, Relation.ReflTransGen Silent (N r) (N' r)) (hout : ∀ r ∉ l, N' r = N r) :
    Reaches cap (net N c) (net N' c) := by
  induction l generalizing N with
  | nil =>
    obtain rfl : N' = N := funext fun r => hout r (by simp)
    exact .refl
  | cons r l ih =>
    refine (silent_reaches (hin r (by simp))).trans (ih ?_ ?_)
    · intro q hq
      by_cases hqr : q = r
      · subst hqr
        rw [update_self]
      · rw [update_of_ne hqr]
        exact hin q (by simp [hq])
    · intro q hq
      by_cases hqr : q = r
      · subst hqr
        rw [update_self]
      · rw [update_of_ne hqr]
        exact hout q (by simp [hqr, hq])

/-- **Round.** The ranks in `l` are at a fork-join block whose threads are
    the threads of the sessions. All of them get past it together. -/
theorem round {l : List ι} {st : ι → Store κ β τ}
    {start next : ι → Proc ι κ β τ Unit} {ts : ι → List (Thread ι κ)}
    (hruns : ∀ p ∈ ps, p.Runs β τ cap) (hapart : ps.Pairwise Session.Apart)
    (hstart : ∀ r ∈ l, start r = .par (ts r) (next r)) (hidle : ∀ r ∉ l, start r = next r)
    (hin : ∀ p ∈ ps, ∀ r t, p.Hits r t → r ∈ l ∧ t ∈ ts r)
    (hcover : ∀ r ∈ l, ∀ t ∈ ts r, t = [] ∨ ∃ p ∈ ps, p.Hits r t)
    (htag : ∀ p ∈ ps, (st p.a).tag = (st p.b).tag) (hrf : ∀ r, (start r).RaceFree) :
    ∃ st', Reaches cap (quiet fun r => ⟨st r, start r⟩) (quiet fun r => ⟨st' r, next r⟩) ∧
      Moved (ps.flatMap Session.moves) st st' := by
  have hready : ∀ p ∈ ps, p.Ready fun r => (⟨st r, start r⟩ : Node ι κ β τ) := by
    intro p hp
    refine ⟨fun r t ht => ?_, htag p hp⟩
    obtain ⟨hr, hmem⟩ := hin p hp r t ht
    exact ⟨ts r, next r, hstart r hr, hmem⟩
  obtain ⟨N', hreach, hprog, hmoved⟩ := exchange hruns hapart hready hrf
  refine ⟨fun r => (N' r).store, hreach.trans (silent_all l ?_ ?_), hmoved⟩
  · intro r hr
    have hpar : N' r = ⟨(N' r).store, .par ((ts r).map (clear ps r)) (next r)⟩ := by
      have := hprog r
      rw [hstart r hr] at this
      rw [← show _ = Proc.par ((ts r).map (clear ps r)) (next r) from this]
    have hdone : ∀ t ∈ (ts r).map (clear ps r), t = [] := by
      intro t ht
      obtain ⟨u, hu, rfl⟩ := List.mem_map.mp ht
      rcases hcover r hr u hu with rfl | ⟨p, hp, hhit⟩
      · exact clear_empty ps r
      · exact clear_of_hits hp hhit
    refine .single ⟨none, ?_⟩
    rw [hpar]
    exact .join hdone
  · intro r hr
    -- A rank outside the round has none of the threads.
    have hnot : clear ps r = id := by
      funext t
      exact clear_of_not fun p hp hhit => hr (hin p hp r t hhit).1
    have hsame : (N' r).prog = next r := by
      rw [hprog, hnot]
      simp only [hidle r hr]
      cases next r <;> simp [Proc.mapThreads]
    rw [← hsame]

end rounds

end ForkJoin
