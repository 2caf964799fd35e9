import Mathlib.Logic.Hydra
import Mathlib.Tactic.Abel
import Mccl.Framework.Lockstep
import Mccl.Framework.System

/-! # Deadlocks

    Ranks that exchange messages over channels of bounded capacity.

    * `step_acc`: every run ends, so a run gets stuck as soon as something
      holds that keeps the ranks from finishing (`stuck_of_invariant`).
    * `Blocked`: two ranks are both inside a send that does not fit.
    * `Waiting`: a rank receives from one that has finished.
    * `Flows`: the ranks meet in exchanges that fit until all of them end.
      `Stalls`: they come to an exchange that does not fit, or to one that not
      all of them take part in.
    * **Main result** (`progress_iff`): the net has progress or gets stuck,
      according to which of the two it is. -/

namespace ForkJoin

variable {κ β τ : Type} [DecidableEq κ] {cap : ℕ∞}

/-! ## Every run ends -/

section termination
variable {ι : Type}

/-- The steps that a thread has left. -/
def Thread.work (t : Thread ι κ) : Nat :=
  (t.map fun | .send _ src => src.length + 1 | .recv _ dst => dst.length + 1).sum

theorem ThreadStep.work {s s' : Store κ β τ} {t t' : Thread ι κ} {e : Event ι β}
    (h : ThreadStep s t e s' t') : t'.work < t.work := by
  cases h <;> simp [Thread.work]

/-- No rank takes infinitely many steps. -/
theorem nodeStep_wf :
    WellFounded fun n' n : Node ι κ β τ => ∃ i e, NodeStep n i e n' := by
  refine ⟨fun ⟨s, p⟩ => ?_⟩
  -- Induction on the program; a fork-join block ends when its threads have no work left.
  induction p generalizing s with
  | ret a | raise msg => exact ⟨_, fun _ ⟨_, _, h⟩ => nomatch h⟩
  | act f k ih =>
    refine ⟨_, ?_⟩
    rintro _ ⟨_, _, h⟩
    cases h
    exact ih s (f s)
  | par ts k ih =>
    generalize hn : (ts.map Thread.work).sum = n
    induction n using Nat.strong_induction_on generalizing s ts with
    | _ n ihn =>
      refine ⟨_, ?_⟩
      rintro _ ⟨_, _, h⟩
      cases h with
      | thread hi ht => exact ihn _ (hn ▸ sum_map_set_lt hi ht.work) _ _ rfl
      | join _ => exact ih s

variable [DecidableEq ι]

/-- **Termination**: if finitely many ranks have something to do, no run is
    infinite. -/
theorem step_acc {l : List ι} (hl : l.Nodup) {x : Net ι κ β τ}
    (hx : ∀ r, r ∉ l → (x.node r).prog.Finished) : Acc (fun z y => Step cap y z) x := by
  -- A step replaces one node of the multiset by a smaller one.
  have hwf := (nodeStep_wf (ι := ι) (κ := κ) (β := β) (τ := τ)).cutExpand
  generalize hs : (l : Multiset ι).map x.node = s
  induction s using hwf.induction generalizing x with
  | _ s ih =>
    refine ⟨_, fun y hy => ?_⟩
    cases hy with
    | @mk r i e n c hn hc =>
      have hr : r ∈ l := by
        by_contra hr
        have hfin := hx r hr
        generalize x.node r = m at hn hfin
        cases hn <;> exact hfin.elim
      refine ih _ ?_ (fun q hq => ?_) rfl
      · refine ⟨{n}, x.node r, by simpa using ⟨i, e, hn⟩, ?_⟩
        have hcons : (l : Multiset ι) = r ::ₘ (l : Multiset ι).erase r :=
          (Multiset.cons_erase hr).symm
        have hnot : r ∉ (l : Multiset ι).erase r :=
          (Multiset.coe_nodup.mpr hl).notMem_erase
        have hmap : ((l : Multiset ι).erase r).map (Function.update x.node r n) =
            ((l : Multiset ι).erase r).map x.node :=
          Multiset.map_congr rfl fun q hq =>
            Function.update_of_ne (fun h : q = r => hnot (h ▸ hq)) _ _
        dsimp only
        rw [← hs, hcons, Multiset.map_cons, Multiset.map_cons, hmap, Function.update_self]
        simp only [← Multiset.singleton_add]
        abel
      · have hqr : q ≠ r := fun h => hq (h ▸ hr)
        simpa [hqr] using hx q hq

/-- A run gets stuck if something keeps the ranks from finishing. -/
theorem stuck_of_invariant {I : Net ι κ β τ → Prop} (hstep : ∀ {y z}, I y → Step cap y z → I z)
    (hfin : ∀ {y}, I y → ¬ y.Finished) {x : Net ι κ β τ}
    (hacc : Acc (fun z y => Step cap y z) x) (hx : I x) :
    ∃ y, Reaches cap x y ∧ ¬ y.Finished ∧ ∀ z, ¬ Step cap y z := by
  induction hacc with
  | intro x _ ih =>
    by_cases hnext : ∃ y, Step cap x y
    · obtain ⟨y, hy⟩ := hnext
      obtain ⟨z, hz, hrest⟩ := ih y hy (hstep hx hy)
      exact ⟨z, .head hy hz, hrest⟩
    · push Not at hnext
      exact ⟨x, .refl, hfin hx, hnext⟩

end termination

/-! ## Blocked sends -/

section blocked
variable {ι : Type}

/-- Rank `a` is inside a send to `b` that does not fit into the channel, and
    will only receive from `b` after it. -/
def Sending (C : Nat) (a b : ι) (x : Net ι κ β τ) : Prop :=
  ∃ (i : Nat) (src : List κ) (t : Thread ι κ) (ts : List (Thread ι κ)) (k : Proc ι κ β τ Unit),
    (x.node a).prog = .par ts k ∧ ts[i]? = some (.send b src :: t) ∧ b ∈ Thread.recvPeers t ∧
      (x.chan a b).length ≤ C ∧ C < (x.chan a b).length + src.length

/-- Both ranks wait for the other one to receive. -/
structure Blocked (C : Nat) (a b : ι) (x : Net ι κ β τ) : Prop where
  raceFree : x.RaceFree
  left : Sending C a b x
  right : Sending C b a x

omit [DecidableEq κ] in
theorem Sending.not_finished {C : Nat} {a b : ι} {x : Net ι κ β τ} (h : Sending C a b x) :
    ¬ x.Finished := by
  obtain ⟨i, src, t, ts, k, hprog, -⟩ := h
  intro hfin
  have := hfin a
  rw [hprog] at this
  exact this

variable [DecidableEq ι]

theorem ChanStep.chan_eq {r a b : ι} {e : Event ι β} {c c' : ι → ι → List (Nat × β)}
    (h : ChanStep cap r e c c') (hout : ∀ x, r = a → e ≠ .out b x)
    (hinp : ∀ x, r = b → e ≠ .inp a x) : c' a b = c a b := by
  cases h with
  | tau c => rfl
  | @out _ q x hroom =>
    refine setChan_ne _ _ fun h => ?_
    obtain ⟨rfl, rfl⟩ := Prod.mk.inj h
    exact hout x rfl rfl
  | @inp _ q x l hhead =>
    refine setChan_ne _ _ fun h => ?_
    obtain ⟨rfl, rfl⟩ := Prod.mk.inj h
    exact hinp x rfl rfl

omit [DecidableEq ι] in
/-- The peer of `a` takes no byte out of the channel: the thread that will
    receive from `a` is still sending. -/
theorem Sending.no_inp {C : Nat} {a b : ι} {x : Net ι κ β τ} (hrf : x.RaceFree)
    (hb : Sending C b a x) {i : Option Nat} {e : Event ι β} {n : Node ι κ β τ}
    (hn : NodeStep (x.node b) i e n) (v : Nat × β) : e ≠ .inp a v := by
  obtain ⟨j, src, t, ts, k, hprog, hj, hrecv, -⟩ := hb
  have hts := hrf b
  rw [hprog] at hts
  rintro rfl
  generalize x.node b = m at hn hprog
  cases hn with
  | @thread s s' ts' k' i u u' e hi ht =>
    obtain ⟨rfl, rfl⟩ : ts' = ts ∧ k' = k := by simpa using hprog
    by_cases hij : i = j
    · subst hij
      obtain rfl : u = _ := Option.some.inj (hi.symm.trans hj)
      cases ht
    · have hind := indep_of_ne hts.1 hi hj hij
      cases ht
      exact hind.recvs (a := a) (by simp) (by simpa using hrecv)

/-- One step does not get `a` out of its send. -/
theorem Sending.step {C : Nat} {a b : ι} {x y : Net ι κ β τ} (hab : a ≠ b) (hrf : x.RaceFree)
    (ha : Sending C a b x) (hb : Sending C b a x) (h : Step (C : ℕ∞) x y) : Sending C a b y := by
  cases h with
  | @mk r i' e n c hn hc =>
    have hinp : ∀ v, r = b → e ≠ .inp a v := by
      rintro v rfl
      exact hb.no_inp hrf hn v
    obtain ⟨i, src, t, ts, k, hprog, hi, hrecv, hle, hlt⟩ := ha
    by_cases hra : r = a
    · subst hra
      have hts := hrf r
      rw [hprog] at hts
      generalize hm : x.node r = m at hn hprog
      cases hn with
      | @thread s s' ts' k' j u u' e hj ht =>
        obtain ⟨rfl, rfl⟩ : ts' = ts ∧ k' = k := by simpa using hprog
        have hlen : i < ts'.length := (List.getElem?_eq_some_iff.mp hi).1
        by_cases hij : j = i
        · -- The sending thread itself: it has bytes left, and needs room for the next one.
          subst hij
          obtain rfl : u = _ := Option.some.inj (hj.symm.trans hi)
          cases ht with
          | sendByte q v vs t =>
            cases hc with
            | out hroom =>
              have hroom : (x.chan r b).length < C := by exact_mod_cast hroom
              refine ⟨j, vs, t, ts'.set j (.send b vs :: t), k', by simp, by simp [hlen], hrecv, ?_, ?_⟩
              · simpa using hroom
              · simp only [setChan_self, List.length_append, List.length_cons, List.length_nil] at *
                omega
          | sendDone q t => simp at hlt; omega
        · have hind := indep_of_ne hts.1 hj hi hij
          have hchan : c r b = x.chan r b := by
            refine hc.chan_eq (fun v _ he => ?_) hinp
            subst he
            cases ht
            exact hind.sends (a := b) (by simp) (by simp)
          exact ⟨i, src, t, ts'.set j u', k', by simp, by simpa [List.getElem?_set_ne hij] using hi, hrecv,
            by simpa [hchan] using hle, by simpa [hchan] using hlt⟩
      | @join s ts' k' hts' =>
        obtain ⟨rfl, rfl⟩ : ts' = ts ∧ k' = k := by simpa using hprog
        have := hts' _ (List.mem_of_getElem? hi)
        cases this
      | act => cases hprog
    · have hchan : c a b = x.chan a b := hc.chan_eq (fun _ h => absurd h hra) hinp
      exact ⟨i, src, t, ts, k, by simpa [Ne.symm hra] using hprog, hi, hrecv,
        by simpa [hchan] using hle, by simpa [hchan] using hlt⟩

theorem Blocked.step {C : Nat} {a b : ι} {x y : Net ι κ β τ} (hab : a ≠ b)
    (hx : Blocked C a b x) (h : Step (C : ℕ∞) x y) : Blocked C a b y where
  raceFree := Step.raceFree hx.raceFree h
  left := hx.left.step hab hx.raceFree hx.right h
  right := hx.right.step hab.symm hx.raceFree hx.left h

end blocked

/-! ## Waiting for a rank that has finished -/

section waiting
variable {ι : Type}

/-- Rank `b` will receive from `a`, which has finished and left nothing. -/
structure Waiting (a b : ι) (x : Net ι κ β τ) : Prop where
  finished : (x.node a).prog.Finished
  chan : x.chan a b = []
  recv : ∃ (i : Nat) (t : Thread ι κ) (ts : List (Thread ι κ)) (k : Proc ι κ β τ Unit),
    (x.node b).prog = .par ts k ∧ ts[i]? = some t ∧ ∃ dst, dst ≠ [] ∧ .recv a dst ∈ t

omit [DecidableEq κ] in
theorem Waiting.not_finished {a b : ι} {x : Net ι κ β τ} (h : Waiting a b x) : ¬ x.Finished := by
  obtain ⟨i, t, ts, k, hprog, -⟩ := h.recv
  intro hfin
  have := hfin b
  rw [hprog] at this
  exact this

variable [DecidableEq ι]

theorem Waiting.step {a b : ι} {x y : Net ι κ β τ} (hx : Waiting a b x) (h : Step cap x y) :
    Waiting a b y := by
  obtain ⟨hfin, hchan, j, t, ts, k, hprog, hj, dst, hdst, hmem⟩ := hx
  cases h with
  | @mk r i e n c hn hc =>
    have hra : r ≠ a := by
      rintro rfl
      generalize x.node r = m at hn hfin
      cases hn <;> exact hfin.elim
    -- There is nothing that `b` could receive from `a`.
    have hinp : ∀ v, r = b → e ≠ .inp a v := by
      rintro v rfl rfl
      cases hc with
      | inp hhead => simp [hchan] at hhead
    have hchan' : c a b = [] := (hc.chan_eq (fun _ h => absurd h hra) hinp).trans hchan
    refine ⟨by simpa [hra.symm] using hfin, hchan', ?_⟩
    by_cases hrb : r = b
    swap
    · exact ⟨j, t, ts, k, by simpa [Ne.symm hrb] using hprog, hj, dst, hdst, hmem⟩
    subst hrb
    generalize hm : x.node r = m at hn hprog
    cases hn with
    | @thread s s' ts' k' i' u u' e hi ht =>
      obtain ⟨rfl, rfl⟩ : ts' = ts ∧ k' = k := by simpa using hprog
      by_cases hij : i' = j
      · subst hij
        obtain rfl : u = t := Option.some.inj (hi.symm.trans hj)
        have hlen : i' < ts'.length := (List.getElem?_eq_some_iff.mp hi).1
        refine ⟨i', u', ts'.set i' u', k', by simp, by simp [hlen], dst, hdst, ?_⟩
        cases ht with
        | sendByte q v vs t => simpa using hmem
        | sendDone q t => simpa using hmem
        | recvByte q v vs t z =>
          have hqa : q ≠ a := fun h => hinp z rfl (by rw [h])
          simpa [hqa.symm] using hmem
        | recvDone q t => simpa [hdst] using hmem
      · exact ⟨j, t, ts'.set i' u', k', by simp, by simpa [List.getElem?_set_ne hij] using hj, dst,
          hdst, hmem⟩
    | @join s ts' k' hts =>
      obtain ⟨rfl, rfl⟩ : ts' = ts ∧ k' = k := by simpa using hprog
      obtain rfl := hts _ (List.mem_of_getElem? hj)
      simp at hmem
    | act => cases hprog

end waiting

/-! ## Flowing and stalling -/

/-- The ranks meet in exchanges whose messages fit, until each of them returns
    or raises by itself. -/
inductive Flows (w : Nat) (cap : ℕ∞) :
    (Nat → Store κ β τ) → (Nat → Proc Nat κ β τ Unit) → Prop where
  | ends {st : Nat → Store κ β τ} {p : Nat → Proc Nat κ β τ Unit}
      (h : ∀ r < w, Ends (p r) (st r)) : Flows w cap st p
  | meets {len : Nat → Nat → Nat} {st : Nat → Store κ β τ} {p : Nat → Proc Nat κ β τ Unit}
      {x : Nat → Staged κ β τ} (h : Meets w p len st x) (hfit : Fits w cap len)
      (rest : ∀ st₂, Exchanged w x st₂ → Flows w cap st₂ fun r => (x r).post) : Flows w cap st p

/-- The ranks meet in exchanges until messages do not fit, or a rank waits for
    one that has finished. -/
inductive Stalls (w C : Nat) :
    (Nat → Store κ β τ) → (Nat → Proc Nat κ β τ Unit) → Prop where
  | unfit {len : Nat → Nat → Nat} {st : Nat → Store κ β τ} {p : Nat → Proc Nat κ β τ Unit}
      {x : Nat → Staged κ β τ} (h : Meets w p len st x) (hnot : ¬ Fits w C len) : Stalls w C st p
  | apart {len : Nat → Nat → Nat} {st : Nat → Store κ β τ} {p : Nat → Proc Nat κ β τ Unit}
      {x : Staged κ β τ} {a b : Nat} (ha : a < w) (hb : b < w) (hab : a ≠ b)
      (hend : Ends (p a) (st a)) (hstaged : x.At w len b (st b) (p b)) (hlen : 0 < len a b) :
      Stalls w C st p
  | meets {len : Nat → Nat → Nat} {st : Nat → Store κ β τ} {p : Nat → Proc Nat κ β τ Unit}
      {x : Nat → Staged κ β τ} (h : Meets w p len st x) (hfit : Fits w C len)
      (rest : ∀ st₂, Exchanged w x st₂ → Stalls w C st₂ fun r => (x r).post) : Stalls w C st p

section lockstep
variable {w C : Nat} {st st' : Nat → Store κ β τ} {p p' : Nat → Proc Nat κ β τ Unit}

section silent
variable (hrun : ∀ r < w, Relation.ReflTransGen Silent ⟨st r, p r⟩ ⟨st' r, p' r⟩)
  (hothers : ∀ r, w ≤ r → st' r = st r)
include hrun hothers

theorem Meets.silent {len : Nat → Nat → Nat} {x : Nat → Staged κ β τ} (h : Meets w p' len st' x) :
    Meets w p len st x where
  staged := fun r hr =>
    have hx := h.staged r hr
    ⟨(hrun r hr).trans hx.pre, hx.src_length, hx.dst_length, hx.nodup⟩
  others := fun r hr => (h.others r hr).trans (hothers r hr)
  tags := h.tags

/-- Local steps in front. -/
theorem Flows.silent (h : Flows w cap st' p') : Flows w cap st p := by
  cases h with
  | ends h =>
    refine .ends fun r hr => ?_
    obtain ⟨s, q, hq, hend⟩ := h r hr
    exact ⟨s, q, hq, (hrun r hr).trans hend⟩
  | meets h hfit rest => exact .meets (h.silent hrun hothers) hfit rest

theorem Stalls.silent (h : Stalls w C st' p') : Stalls w C st p := by
  cases h with
  | unfit h hnot => exact .unfit (h.silent hrun hothers) hnot
  | apart ha hb hab hend hstaged hlen =>
    obtain ⟨s, q, hq, hend⟩ := hend
    exact .apart ha hb hab ⟨s, q, hq, (hrun _ ha).trans hend⟩
      ⟨(hrun _ hb).trans hstaged.pre, hstaged.src_length, hstaged.dst_length, hstaged.nodup⟩ hlen
  | meets h hfit rest => exact .meets (h.silent hrun hothers) hfit rest

end silent

theorem Flows.congr (h : Flows w cap st p) (heq : ∀ r < w, p' r = p r) : Flows w cap st p' :=
  h.silent (fun r hr => by rw [heq r hr]) fun _ _ => rfl

theorem Stalls.congr (h : Stalls w C st p) (heq : ∀ r < w, p' r = p r) : Stalls w C st p' :=
  h.silent (fun r hr => by rw [heq r hr]) fun _ _ => rfl

section context
variable {F : Nat → Proc Nat κ β τ Unit → Proc Nat κ β τ Unit}

theorem Ends.context {F : Proc Nat κ β τ Unit → Proc Nat κ β τ Unit} (hF : Context F)
    (hend : ∀ q : Proc Nat κ β τ Unit, q.Finished → ∀ s, Ends (F q) s) {p : Proc Nat κ β τ Unit}
    {s : Store κ β τ} (h : Ends p s) : Ends (F p) s := by
  obtain ⟨s', q, hq, hrun⟩ := h
  obtain ⟨s'', q', hq', hrun'⟩ := hend q hq s'
  exact ⟨s'', q', hq', (silent_context hF hrun).trans hrun'⟩

/-- The same in a context that ends by itself. -/
theorem Flows.context (h : Flows w cap st p) (hF : ∀ r, Context (F r))
    (hend : ∀ r, ∀ q : Proc Nat κ β τ Unit, q.Finished → ∀ s, Ends (F r q) s) :
    Flows w cap st fun r => F r (p r) := by
  induction h with
  | ends h => exact .ends fun r hr => (h r hr).context (hF r) (hend r)
  | meets h hfit rest ih => exact .meets (h.context hF) hfit ih

theorem Stalls.context (h : Stalls w C st p) (hF : ∀ r, Context (F r))
    (hend : ∀ r, ∀ q : Proc Nat κ β τ Unit, q.Finished → ∀ s, Ends (F r q) s) :
    Stalls w C st fun r => F r (p r) := by
  induction h with
  | unfit h hnot => exact .unfit (h.context hF) hnot
  | @apart len st p x a b ha hb hab hends hx hlen =>
    have hpre := silent_context (hF b) hx.pre
    rw [(hF b).par] at hpre
    exact .apart (x := { x with post := F b x.post }) ha hb hab (hends.context (hF a) (hend a))
      ⟨hpre, hx.src_length, hx.dst_length, hx.nodup⟩ hlen
  | meets h hfit rest ih => exact .meets (h.context hF) hfit ih

end context

/-! ## Runs -/

omit [DecidableEq κ] in
theorem start_raceFree (hrf : ∀ r < w, (p r).RaceFree) : (start (List.range w) st p).RaceFree := by
  intro r
  simp only [start, quiet_node]
  split
  · exact hrf r (List.mem_range.mp ‹_›)
  · trivial

theorem start_acc : Acc (fun z y => Step cap y z) (start (List.range w) st p) := by
  refine step_acc (List.nodup_range (n := w)) fun r hr => ?_
  simp only [start, quiet_node, hr, if_false]
  trivial

/-- A complete run. -/
theorem Flows.halts (h : Flows w cap st p) (hrf : ∀ r < w, (p r).RaceFree) (hcap : 0 < cap) :
    ∃ y, Reaches cap (start (List.range w) st p) y ∧ y.Finished := by
  induction h with
  | @ends st p h =>
    have hall : ∀ r, ∃ n : Node Nat κ β τ, n.prog.Finished ∧
        (r ∈ List.range w → Relation.ReflTransGen Silent ⟨st r, p r⟩ n) ∧
        (r ∉ List.range w → n = ⟨st r, .ret ()⟩) := by
      intro r
      by_cases hr : r ∈ List.range w
      · obtain ⟨s, q, hq, hrun⟩ := h r (List.mem_range.mp hr)
        exact ⟨⟨s, q⟩, hq, fun _ => hrun, fun hr' => absurd hr hr'⟩
      · exact ⟨⟨st r, .ret ()⟩, trivial, fun hr' => absurd hr' hr, fun _ => rfl⟩
    choose N hN using hall
    refine ⟨quiet N, silent_all (List.range w) (fun r hr => ?_) fun r hr => ?_, fun r => (hN r).1⟩
    · simpa [hr] using (hN r).2.1 hr
    · simpa [hr] using (hN r).2.2 hr
  | meets h hfit rest ih =>
    obtain ⟨st₂, hst₂, hrf', hreach⟩ := h.reaches hrf hcap hfit
    obtain ⟨y, hy, hfin⟩ := ih st₂ hst₂ hrf'
    exact ⟨y, hreach.trans hy, hfin⟩

/-- If neither of two messages that cross each other fits, the ranks are
    blocked. -/
theorem Meets.blocked {len : Nat → Nat → Nat} {x : Nat → Staged κ β τ} (h : Meets w p len st x)
    (hrf : ∀ r < w, (p r).RaceFree) (hnot : ¬ Fits w C len) :
    ∃ a b y, a ≠ b ∧ Reaches (C : ℕ∞) (start (List.range w) st p) y ∧ Blocked C a b y := by
  simp only [Fits, not_forall, not_or, not_le] at hnot
  obtain ⟨a, ha, b, hb, hba, hlen, hlen'⟩ := hnot
  have hreach : Reaches (C : ℕ∞) _ _ := h.reaches_start
  -- Both threads of the pair start with their send.
  have hsend : ∀ {a b}, a < w → b < w → a ≠ b → C < len a b → C < len b a →
      Sending C a b (start (List.range w) (fun r => (x r).store)
        fun r => .par (exchangeThreads w r (x r).src (x r).dst) (x r).post) := by
    intro a b ha hb hab hlen hlen'
    have hsrc := (h.staged a ha).src_length b hb hab.symm
    have hdst := (h.staged a ha).dst_length b hb hab.symm
    have hsrc_ne : (x a).src b ≠ [] := List.ne_nil_of_length_pos (by omega)
    have hdst_ne : (x a).dst b ≠ [] := List.ne_nil_of_length_pos (by omega)
    have hmem := mem_exchangeThreads.mpr
      ⟨b, hb, hab.symm, .inl hsrc_ne, (exchangeThread_of_ne hsrc_ne hdst_ne).symm⟩
    obtain ⟨i, hi⟩ := List.getElem?_of_mem hmem
    refine ⟨i, (x a).src b, [.recv b ((x a).dst b)], _, (x a).post, ?_, hi, by simp,
      by simp [start], ?_⟩
    · simp [start, ha]
    · simpa [start, hsrc] using hlen
  have hlen : C < len a b := by exact_mod_cast hlen
  have hlen' : C < len b a := by exact_mod_cast hlen'
  exact ⟨a, b, _, hba.symm, hreach,
    Rewriting.invariant_reaches Net.RaceFree Step.raceFree (start_raceFree hrf) hreach,
    hsend ha hb hba.symm hlen hlen', hsend hb ha hba hlen' hlen⟩

/-- A rank that has come to an exchange waits for one that has ended. -/
theorem waiting_of_apart {len : Nat → Nat → Nat} {x : Staged κ β τ} {a b : Nat} (ha : a < w)
    (hb : b < w) (hab : a ≠ b) (hends : Ends (p a) (st a)) (hx : x.At w len b (st b) (p b))
    (hlen : 0 < len a b) : ∃ y, Reaches cap (start (List.range w) st p) y ∧ Waiting a b y := by
  obtain ⟨s, q, hq, hrun⟩ := hends
  let N (r : Nat) : Node Nat κ β τ :=
    if r = a then ⟨s, q⟩
    else if r = b then ⟨x.store, .par (exchangeThreads w b x.src x.dst) x.post⟩
    else ⟨st r, if r ∈ List.range w then p r else .ret ()⟩
  have hdst : x.dst a ≠ [] :=
    List.ne_nil_of_length_pos (by rw [hx.dst_length a ha hab]; exact hlen)
  refine ⟨quiet N, silent_all [a, b] (fun r hr => ?_) fun r hr => ?_, ?_, rfl, ?_⟩
  · rcases List.mem_pair.mp hr with rfl | rfl
    · simpa [N, ha] using hrun
    · simpa [N, hb, hab.symm] using hx.pre
  · obtain ⟨hra, hrb⟩ : r ≠ a ∧ r ≠ b := by simpa using hr
    simp [N, hra, hrb]
  · simpa [N] using hq
  · have hmem : exchangeThread a (x.src a) (x.dst a) ∈ exchangeThreads w b x.src x.dst :=
      mem_exchangeThreads.mpr ⟨a, ha, hab, .inr hdst, rfl⟩
    obtain ⟨i, hi⟩ := List.getElem?_of_mem hmem
    refine ⟨i, _, _, x.post, by simp [N, hab.symm], hi, x.dst a, hdst, ?_⟩
    simp [exchangeThread, hdst]

theorem Stalls.stuck (h : Stalls w C st p) (hrf : ∀ r < w, (p r).RaceFree) (hC : 0 < C) :
    ∃ y, Reaches (C : ℕ∞) (start (List.range w) st p) y ∧ ¬ y.Finished ∧
      ∀ z, ¬ Step (C : ℕ∞) y z := by
  have hstuck : ∀ {st : Nat → Store κ β τ} {p : Nat → Proc Nat κ β τ Unit}
      {I : Net Nat κ β τ → Prop} {y}, (∀ {y z}, I y → Step (C : ℕ∞) y z → I z) →
      (∀ {y}, I y → ¬ y.Finished) → Reaches (C : ℕ∞) (start (List.range w) st p) y → I y →
      ∃ y, Reaches (C : ℕ∞) (start (List.range w) st p) y ∧ ¬ y.Finished ∧
        ∀ z, ¬ Step (C : ℕ∞) y z := by
    intro st p I y hstep hfin hy hI
    have hacc : Acc (fun z y => Step (C : ℕ∞) y z) y :=
      Rewriting.invariant_reaches (Acc fun z y => Step (C : ℕ∞) y z) (fun h hs => h.inv hs)
        start_acc hy
    obtain ⟨z, hz, hrest⟩ := stuck_of_invariant hstep hfin hacc hI
    exact ⟨z, hy.trans hz, hrest⟩
  induction h with
  | unfit h hnot =>
    obtain ⟨a, b, y, hab, hy, hblocked⟩ := h.blocked hrf hnot
    exact hstuck (fun h hs => h.step hab hs) (fun h => h.left.not_finished) hy hblocked
  | apart ha hb hab hends hx hlen =>
    obtain ⟨y, hy, hwaiting⟩ := waiting_of_apart ha hb hab hends hx hlen
    exact hstuck (fun h hs => h.step hs) (fun h => h.not_finished) hy hwaiting
  | meets h hfit rest ih =>
    obtain ⟨st₂, hst₂, hrf', hreach⟩ := h.reaches hrf (by exact_mod_cast hC) hfit
    obtain ⟨y, hy, hrest⟩ := ih st₂ hst₂ hrf'
    exact ⟨y, hreach.trans hy, hrest⟩

/-- **Deadlock freedom** is decided by whether the ranks flow or stall. -/
theorem progress_iff {P : Prop} (hflow : P → Flows w C st p) (hstall : ¬ P → Stalls w C st p)
    (hrf : ∀ r < w, (p r).RaceFree) (hC : 0 < C) :
    (∀ y, Reaches (C : ℕ∞) (start (List.range w) st p) y → ¬ y.Finished →
      ∃ z, Step (C : ℕ∞) y z) ↔ P := by
  constructor
  · intro hprogress
    by_contra hP
    obtain ⟨y, hy, hnfin, hstuck⟩ := (hstall hP).stuck hrf hC
    obtain ⟨z, hz⟩ := hprogress y hy hnfin
    exact hstuck z hz
  · intro hP y hy hnfin
    obtain ⟨z, hz, hfin⟩ := (hflow hP).halts hrf (by exact_mod_cast hC)
    exact (outcome_of_run (start_raceFree hrf) hz hfin).progress hy hnfin

end lockstep

/-! ## Programs made of rounds -/

namespace Exchanges

variable {w C n : Nat} {len : Nat → Nat → Nat → Nat} {body : Nat → Proc Nat κ β τ Unit}
  {st : Nat → Store κ β τ} {Q : (Nat → Store κ β τ) → Prop}

theorem raceFree (h : Exchanges w n len body st Q) {r : Nat} (hr : r < w) : (body r).RaceFree := by
  obtain ⟨inv, round, hbody, -, hround, -⟩ := h.rounds
  rw [hbody r hr]
  exact .forM fun i hi => (hround i (List.mem_range.mp hi)).raceFree r hr

theorem flows (h : Exchanges w n len body st Q) (hfit : ∀ i < n, Fits w cap (len i)) :
    Flows w cap st body := by
  obtain ⟨inv, round, hbody, hinit, hround, -⟩ := h.rounds
  -- From round `i` on.
  have hrest : ∀ m i, i + m = n → ∀ st, inv i st →
      Flows w cap st fun r => ForM.forM (List.range' i m) (round r) := by
    intro m
    induction m with
    | zero => exact fun i _ st _ => .ends fun r _ => ⟨st r, .ret (), trivial, .refl⟩
    | succ m ih =>
      intro i hi st hst
      obtain ⟨x, hmeets, hfinish⟩ := (hround i (by omega)).run st hst
      refine .meets (hmeets.bind fun r _ => ForM.forM (List.range' (i + 1) m) (round r))
        (hfit i (by omega)) fun st₂ hst₂ => ?_
      obtain ⟨st₃, hst₃, hrun, hothers⟩ := hfinish st₂ hst₂
      exact (ih (i + 1) (by omega) st₃ hst₃).silent (fun r hr => hrun r hr _) hothers
  have hall := hrest n 0 (by omega) st hinit
  rw [← List.range_eq_range'] at hall
  exact hall.congr hbody

theorem stalls (h : Exchanges w n len body st Q) (hnot : ¬ ∀ i < n, Fits w C (len i)) :
    Stalls w C st body := by
  obtain ⟨inv, round, hbody, hinit, hround, -⟩ := h.rounds
  have hrest : ∀ m i, i + m = n → ∀ st, inv i st → (∃ j, i ≤ j ∧ j < n ∧ ¬ Fits w C (len j)) →
      Stalls w C st fun r => ForM.forM (List.range' i m) (round r) := by
    intro m
    induction m with
    | zero =>
      rintro i hi st _ ⟨j, hij, hjn, -⟩
      omega
    | succ m ih =>
      rintro i hi st hst ⟨j, hij, hjn, hj⟩
      obtain ⟨x, hmeets, hfinish⟩ := (hround i (by omega)).run st hst
      have hmeets' := hmeets.bind fun r _ => ForM.forM (List.range' (i + 1) m) (round r)
      by_cases hfit : Fits w C (len i)
      · have hij' : i ≠ j := fun h => hj (h ▸ hfit)
        refine .meets hmeets' hfit fun st₂ hst₂ => ?_
        obtain ⟨st₃, hst₃, hrun, hothers⟩ := hfinish st₂ hst₂
        exact (ih (i + 1) (by omega) st₃ hst₃ ⟨j, by omega, hjn, hj⟩).silent
          (fun r hr => hrun r hr _) hothers
      · exact .unfit hmeets' hfit
  push Not at hnot
  obtain ⟨j, hjn, hj⟩ := hnot
  have hall := hrest n 0 (by omega) st hinit ⟨j, by omega, hjn, hj⟩
  rw [← List.range_eq_range'] at hall
  exact hall.congr hbody

end Exchanges

/-! ## Rounds that may raise -/

/-- A round, after the exchange of which rank `r` goes on or raises. Nothing is
    said about the memory. -/
structure Attempt (w : Nat) (I : Nat → Store κ β τ → Prop) (p : Nat → Proc Nat κ β τ PUnit)
    (len : Nat → Nat → Nat) (goes : Nat → Prop) : Prop where
  staged : ∀ r < w, ∀ s, I r s → ∃ x : Staged κ β τ, x.From w len r s (p r) ∧ ∀ m,
    (goes r → ∃ s', I r s' ∧ Computes x.post { x.store with mem := m } s' ()) ∧
    (¬ goes r → ∃ s' msg, ∀ k : Unit → Proc Nat κ β τ Unit,
      Relation.ReflTransGen Silent ⟨{ x.store with mem := m }, x.post >>= k⟩ ⟨s', .raise msg⟩)

/-- Every round that some rank comes to is one that all ranks come to, and its
    messages fit. -/
def Agrees (w : Nat) (cap : ℕ∞) (n : Nat) (len : Nat → Nat → Nat → Nat) (goes : Nat → Nat → Prop) :
    Prop :=
  ∀ i < n, ∀ r < w, (∀ i' < i, goes i' r) → (∀ q < w, ∀ i' < i, goes i' q) ∧ Fits w cap (len i)

section attempts
variable {w C n : Nat} {len : Nat → Nat → Nat → Nat} {goes : Nat → Nat → Prop}
  {I : Nat → Store κ β τ → Prop} {round : Nat → Nat → Proc Nat κ β τ PUnit}
  {st : Nat → Store κ β τ}

/-- What the ranks do after the exchange of a round: those that go on come to
    `k`, the others raise. -/
theorem Attempt.meets {len : Nat → Nat → Nat} {goes : Nat → Prop} {p : Nat → Proc Nat κ β τ PUnit}
    (h : Attempt w I p len goes) (htag : ∀ r < w, ∀ q < w, ∀ s s', I r s → I q s' → s.tag = s'.tag)
    (hst : ∀ r < w, I r (st r)) (k : Nat → Unit → Proc Nat κ β τ Unit) :
    ∃ x, Meets w (fun r => p r >>= k r) len st x ∧ ∀ st₂, Exchanged w x st₂ →
      ∃ st₃ : Nat → Store κ β τ, (∀ r, w ≤ r → st₃ r = st₂ r) ∧ ∀ r < w,
        (goes r → I r (st₃ r) ∧
          Relation.ReflTransGen Silent ⟨st₂ r, (x r).post⟩ ⟨st₃ r, k r ()⟩) ∧
        (¬ goes r → Ends (x r).post (st₂ r)) := by
  obtain ⟨x, hmeets, hx⟩ := Meets.of_ranks
    (fun r hr q hq => htag r hr q hq _ _ (hst r hr) (hst q hq)) fun r hr =>
      h.staged r hr (st r) (hst r hr)
  refine ⟨_, hmeets.bind k, fun st₂ hst₂ => ?_⟩
  have hstore : ∀ r, st₂ r = { (x r).store with mem := (st₂ r).mem } := by
    intro r
    have haux := hst₂.aux r
    have htag := hst₂.tag r
    cases h : st₂ r
    simp_all
  have hlast : ∀ r < w, ∃ s,
      (goes r → I r s ∧ Relation.ReflTransGen Silent ⟨st₂ r, (x r).post >>= k r⟩ ⟨s, k r ()⟩) ∧
      (¬ goes r → Ends ((x r).post >>= k r) (st₂ r)) := by
    intro r hr
    obtain ⟨hgo, hraise⟩ := hx r hr (st₂ r).mem
    rw [← hstore r] at hgo hraise
    by_cases hg : goes r
    · obtain ⟨s, hs, hrun⟩ := hgo hg
      exact ⟨s, fun _ => ⟨hs, hrun (k r)⟩, fun h => absurd hg h⟩
    · obtain ⟨s, msg, hrun⟩ := hraise hg
      exact ⟨s, fun h => absurd h hg, fun _ => ⟨s, .raise msg, trivial, hrun (k r)⟩⟩
  obtain ⟨st₃, hin, hout⟩ := exists_extend st₂ hlast
  exact ⟨st₃, fun r hr => hout r (Nat.not_lt.mpr hr), hin⟩

variable (hround : ∀ i < n, Attempt w I (fun r => round r i) (len i) (goes i))
  (htag : ∀ r < w, ∀ q < w, ∀ s s', I r s → I q s' → s.tag = s'.tag) (hst : ∀ r < w, I r (st r))
include hround htag hst

theorem flows_of_agrees (hw : 0 < w) (hagrees : Agrees w cap n len goes) :
    Flows w cap st fun r => ForM.forM (List.range n) (round r) := by
  -- From round `i` on, which all ranks have come to.
  have hrest : ∀ m i, i + m = n → (∀ q < w, ∀ i' < i, goes i' q) → ∀ st : Nat → Store κ β τ,
      (∀ r < w, I r (st r)) → Flows w cap st fun r => ForM.forM (List.range' i m) (round r) := by
    intro m
    induction m with
    | zero => exact fun i _ _ st _ => .ends fun r _ => ⟨st r, .ret (), trivial, .refl⟩
    | succ m ih =>
      intro i hi hreached st hst
      obtain ⟨x, hmeets, hfinish⟩ := (hround i (by omega)).meets htag hst
        fun r _ => ForM.forM (List.range' (i + 1) m) (round r)
      refine .meets hmeets (hagrees i (by omega) 0 hw (hreached 0 hw)).2 fun st₂ hst₂ => ?_
      obtain ⟨st₃, hothers, hst₃⟩ := hfinish st₂ hst₂
      have hnext : ∀ r < w, goes i r → ∀ i' < i + 1, goes i' r := by
        intro r hr hg i' hi'
        rcases Nat.lt_succ_iff_lt_or_eq.mp hi' with hlt | rfl
        · exact hreached r hr i' hlt
        · exact hg
      by_cases hall : ∀ r < w, goes i r
      · exact (ih (i + 1) (by omega) (fun q hq => hnext q hq (hall q hq)) st₃
          fun r hr => ((hst₃ r hr).1 (hall r hr)).1).silent
          (fun r hr => ((hst₃ r hr).1 (hall r hr)).2) hothers
      · -- The ranks that go on come to the end, since they would be alone in another round.
        refine .ends fun r hr => ?_
        by_cases hg : goes i r
        · have hm : m = 0 := by
            by_contra hm
            refine hall fun q hq => ?_
            exact (hagrees (i + 1) (by omega) r hr (hnext r hr hg)).1 q hq i (Nat.lt_succ_self i)
          have hrun := ((hst₃ r hr).1 hg).2
          rw [hm] at hrun
          exact ⟨st₃ r, .ret (), trivial, hrun⟩
        · exact (hst₃ r hr).2 hg
  have hall := hrest n 0 (by omega) (fun _ _ _ h => absurd h (Nat.not_lt_zero _)) st hst
  rwa [← List.range_eq_range'] at hall

theorem stalls_of_not_agrees (hpos : ∀ i < n, ∀ r < w, ∀ q < w, 0 < len i r q)
    (hnot : ¬ Agrees w C n len goes) :
    Stalls w C st fun r => ForM.forM (List.range n) (round r) := by
  have hrest : ∀ m i, i + m = n → (∀ q < w, ∀ i' < i, goes i' q) → ∀ st : Nat → Store κ β τ,
      (∀ r < w, I r (st r)) →
      (∃ j, i ≤ j ∧ j < n ∧ ∃ r < w, (∀ i' < j, goes i' r) ∧
        ¬ ((∀ q < w, ∀ i' < j, goes i' q) ∧ Fits w C (len j))) →
      Stalls w C st fun r => ForM.forM (List.range' i m) (round r) := by
    intro m
    induction m with
    | zero =>
      rintro i hi _ st _ ⟨j, hij, hjn, -⟩
      omega
    | succ m ih =>
      rintro i hi hreached st hst ⟨j, hij, hjn, b, hb, hbj, hfails⟩
      obtain ⟨x, hmeets, hfinish⟩ := (hround i (by omega)).meets htag hst
        fun r _ => ForM.forM (List.range' (i + 1) m) (round r)
      by_cases hfit : Fits w C (len i)
      swap
      · exact .unfit hmeets hfit
      have hlt : i < j := by
        refine lt_of_le_of_ne hij ?_
        rintro rfl
        exact hfails ⟨hreached, hfit⟩
      refine .meets hmeets hfit fun st₂ hst₂ => ?_
      obtain ⟨st₃, hothers, hst₃⟩ := hfinish st₂ hst₂
      by_cases hall : ∀ r < w, goes i r
      · refine (ih (i + 1) (by omega) (fun q hq i' hi' => ?_) st₃
          (fun r hr => ((hst₃ r hr).1 (hall r hr)).1) ⟨j, hlt, hjn, b, hb, hbj, hfails⟩).silent
          (fun r hr => ((hst₃ r hr).1 (hall r hr)).2) hothers
        rcases Nat.lt_succ_iff_lt_or_eq.mp hi' with hlt | rfl
        · exact hreached q hq i' hlt
        · exact hall q hq
      · -- Rank `b` comes to the next round, rank `a` does not.
        push Not at hall
        obtain ⟨a, ha, hga⟩ := hall
        have hgb := hbj i hlt
        obtain ⟨m, rfl⟩ : ∃ m', m = m' + 1 := ⟨m - 1, by omega⟩
        obtain ⟨hIb, hrunb⟩ := (hst₃ b hb).1 hgb
        obtain ⟨y, hy, -⟩ := (hround (i + 1) (by omega)).staged b hb (st₃ b) hIb
        have hab : a ≠ b := fun h => hga (h ▸ hgb)
        rw [List.range'_succ, List.forM_cons] at hrunb
        have hpre := silent_context
          (Context.bind fun _ => ForM.forM (List.range' (i + 1 + 1) m) (round b)) hy.pre
        exact .apart (x := { y with post := y.post >>= fun _ => _ }) ha hb hab ((hst₃ a ha).2 hga)
          ⟨hrunb.trans hpre, hy.src_length, hy.dst_length, hy.nodup⟩ (hpos _ (by omega) a ha b hb)
  simp only [Agrees, not_forall] at hnot
  obtain ⟨j, hjn, r, hr, hreach, hfails⟩ := hnot
  have hall := hrest n 0 (by omega) (fun _ _ _ h => absurd h (Nat.not_lt_zero _)) st hst
    ⟨j, by omega, hjn, r, hr, hreach, hfails⟩
  rwa [← List.range_eq_range'] at hall

end attempts

end ForkJoin
