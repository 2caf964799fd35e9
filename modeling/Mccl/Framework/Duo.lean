import Mccl.Framework.Deadlock

/-! # One Sender and One Receiver

    Nets in which only two ranks have something to do: rank `a` sends, rank `b`
    receives.

    * `duo_left`, `duo_right`, `duo_transfer`: local steps of one of them, and a
      message that the other takes.
    * `Proc.Deaf`: programs that do not receive.
    * `OnlySends.reaches`: once the receiver is done, nothing is received.
    * `Rewriting.exists_terminal`: a run that cannot go on for ever ends. -/

namespace Rewriting

theorem exists_terminal {State : Type} {step : State → State → Prop} {s : State}
    (h : Acc (fun b a => step a b) s) :
    ∃ f, Relation.ReflTransGen step s f ∧ Terminal step f := by
  induction h with
  | intro s _ ih =>
    by_cases hstep : ∃ s', step s s'
    · obtain ⟨s', hs'⟩ := hstep
      obtain ⟨f, hf, hterm⟩ := ih s' hs'
      exact ⟨f, .head hs' hf, hterm⟩
    · exact ⟨s, .refl, fun s' hs' => hstep ⟨s', hs'⟩⟩

end Rewriting

namespace ForkJoin

variable {ι κ β τ α γ : Type}

/-! ## Programs that only send or only receive -/

def Op.Sends : Op ι κ → Prop
  | .send _ _ => True
  | .recv _ _ => False

/-- The program does not receive. -/
def Proc.Deaf : Proc ι κ β τ α → Prop
  | .ret _ => True
  | .raise _ => True
  | .act _ k => ∀ s, (k s).Deaf
  | .par ts k => (∀ t ∈ ts, ∀ c ∈ t, c.Sends) ∧ k.Deaf

namespace Proc.Deaf

variable {p : Proc ι κ β τ α}

theorem bind {g : α → Proc ι κ β τ γ} (hp : p.Deaf) (hg : ∀ a, (g a).Deaf) :
    (p >>= g).Deaf := by
  induction p with
  | ret a => exact hg a
  | raise msg => trivial
  | act f k ih => exact fun s => ih s (hp s)
  | par ts k ih => exact ⟨hp.1, ih hp.2⟩

theorem tryCatch {h : String → Proc ι κ β τ α} (hp : p.Deaf)
    (hh : ∀ msg, (h msg).Deaf) : (p.tryCatch h).Deaf := by
  induction p with
  | ret a => trivial
  | raise msg => exact hh msg
  | act f k ih => exact fun s => ih s (hp s)
  | par ts k ih => exact ⟨hp.1, ih hp.2⟩

theorem of_straight (h : p.Straight) : p.Deaf := by
  induction p with
  | ret a => trivial
  | raise msg => trivial
  | act f k ih => exact fun s => ih s (h s)
  | par ts k ih => exact h.elim

end Proc.Deaf

variable [DecidableEq κ]

theorem NodeStep.deaf {n n' : Node ι κ β τ} {i : Option Nat} {e : Event ι β}
    (h : NodeStep n i e n') (hn : n.prog.Deaf) : n'.prog.Deaf ∧ ∀ tag, e.Fits tag := by
  cases h with
  | @thread s s' ts k i t t' e hi ht =>
    have hsends := hn.1 t (List.mem_of_getElem? hi)
    cases ht with
    | sendByte q a as t =>
      refine ⟨⟨fun u hu c hc => ?_, hn.2⟩, fun _ => trivial⟩
      rcases List.mem_or_eq_of_mem_set hu with hu | rfl
      · exact hn.1 u hu c hc
      · rcases List.mem_cons.mp hc with rfl | hc
        · trivial
        · exact hsends c (List.mem_cons_of_mem _ hc)
    | sendDone q t =>
      refine ⟨⟨fun u hu c hc => ?_, hn.2⟩, fun _ => trivial⟩
      rcases List.mem_or_eq_of_mem_set hu with hu | rfl
      · exact hn.1 u hu c hc
      · exact hsends c (List.mem_cons_of_mem _ hc)
    | recvByte q a as t x | recvDone q t => exact (hsends _ (List.mem_cons_self ..)).elim
  | join hts => exact ⟨hn.2, fun _ => trivial⟩
  | @act s f k => exact ⟨hn s, fun _ => trivial⟩

/-! ## Two ranks -/

section duo
variable [DecidableEq ι] {a b : ι} {na nb n : Node ι κ β τ} {others : ι → Node ι κ β τ}

/-- Two of the ranks, and the others. -/
def duo (a b : ι) (na nb : Node ι κ β τ) (others : ι → Node ι κ β τ) (r : ι) : Node ι κ β τ :=
  if r = a then na else if r = b then nb else others r

omit [DecidableEq κ] in
@[simp] theorem duo_a : duo a b na nb others a = na := if_pos rfl

omit [DecidableEq κ] in
theorem duo_b (hab : a ≠ b) : duo a b na nb others b = nb := by
  rw [duo, if_neg hab.symm, if_pos rfl]

omit [DecidableEq κ] in
theorem update_a : Function.update (duo a b na nb others) a n = duo a b n nb others := by
  funext r
  by_cases hr : r = a
  · subst hr
    simp
  · simp [duo, hr]

omit [DecidableEq κ] in
theorem update_b (hab : a ≠ b) : Function.update (duo a b na nb others) b n = duo a b na n others := by
  funext r
  by_cases hr : r = b
  · subst hr
    simp [duo_b hab]
  · simp [duo, hr]

variable {cap : ℕ∞} {c : ι → ι → List (Nat × β)}

theorem duo_left (h : Relation.ReflTransGen Silent na n) :
    Reaches cap (net (duo a b na nb others) c) (net (duo a b n nb others) c) := by
  have hstep : Reaches cap _ _ := silent_reaches (c := c) (N := duo a b na nb others) (r := a) (by simpa using h)
  rwa [update_a] at hstep

theorem duo_right (hab : a ≠ b) (h : Relation.ReflTransGen Silent nb n) :
    Reaches cap (net (duo a b na nb others) c) (net (duo a b na n others) c) := by
  have hstep : Reaches cap _ _ := silent_reaches (c := c) (N := duo a b na nb others) (r := b)
    (by simpa [duo_b hab] using h)
  rwa [update_b hab] at hstep

/-- Rank `b` takes the message that rank `a` sends. -/
theorem duo_transfer (hcap : 0 < cap) (hab : a ≠ b) {s u : Store κ β τ} {k l : Proc ι κ β τ Unit}
    {src dst : List κ} (hlen : src.length = dst.length) (htag : s.tag = u.tag) :
    Reaches cap
      (quiet (duo a b ⟨s, .par [[.send b src]] k⟩ ⟨u, .par [[.recv a dst]] l⟩ others))
      (quiet (duo a b ⟨s, k⟩ ⟨u.writes dst (src.map s.mem), l⟩ others)) := by
  have hmove := rendezvous (N := duo a b ⟨s, .par [[.send b src]] k⟩ ⟨u, .par [[.recv a dst]] l⟩ others)
    (c := fun _ _ => []) (i := 0) (j := 0) hcap hab duo_a rfl (duo_b hab) rfl hlen htag rfl
  rw [update_a, update_b hab] at hmove
  refine hmove.trans ((duo_left (.single ⟨none, .join ?_⟩)).trans
    (duo_right hab (.single ⟨none, .join ?_⟩))) <;> simp

/-- Rank `b` takes a byte that was not meant for it. -/
theorem duo_unmatched (hcap : 0 < cap) (hab : a ≠ b) {s u : Store κ β τ} {k l : Proc ι κ β τ Unit}
    {x y : κ} {src dst : List κ} (htag : s.tag ≠ u.tag) :
    ∃ z, Reaches cap
      (quiet (duo a b ⟨s, .par [[.send b (x :: src)]] k⟩ ⟨u, .par [[.recv a (y :: dst)]] l⟩ others)) z ∧
      ¬ z.matched := by
  have hsent : Step cap _ _ := Step.of_eq (s := quiet (duo a b ⟨s, .par [[.send b (x :: src)]] k⟩
    ⟨u, .par [[.recv a (y :: dst)]] l⟩ others)) (r := a) duo_a
    (.thread (i := 0) rfl (.sendByte b x src [])) (.out (by simpa using hcap)) rfl
  refine ⟨_, .head hsent (.single (.of_eq (r := b) (m := ⟨u, .par [[.recv a (y :: dst)]] l⟩) ?_
    (.thread (i := 0) rfl (.recvByte a y dst [] (s.tag, s.mem x))) (.inp (setChan_self ..)) rfl)),
    fun h => htag h.2⟩
  exact (Function.update_of_ne hab.symm ..).trans (duo_b hab)

/-- Ranks that have nothing to do. -/
def bystanders (st : ι → Store κ β τ) (r : ι) : Node ι κ β τ := ⟨st r, .ret ()⟩

variable {st : ι → Store κ β τ}

omit [DecidableEq κ] in
theorem duo_raceFree (ha : na.prog.RaceFree) (hb : nb.prog.RaceFree) :
    (quiet (duo a b na nb (bystanders st))).RaceFree := by
  intro r
  rw [quiet_node, duo]
  split
  · exact ha
  · split
    · exact hb
    · trivial

/-- Two ranks do not run forever. -/
theorem duo_acc (hab : a ≠ b) :
    Acc (fun z y => Step cap y z) (quiet (duo a b na nb (bystanders st))) := by
  refine step_acc (l := [a, b]) (by simpa using hab) fun r hr => ?_
  simp only [List.mem_cons, List.not_mem_nil, or_false, not_or] at hr
  simp [duo, hr.1, hr.2, bystanders, Proc.Finished]

/-- Rank `b` waits for a message that rank `a` does not send. -/
theorem duo_waiting {u : Store κ β τ} {l : Proc ι κ β τ Unit} {dst : List κ} (hab : a ≠ b)
    (ha : na.prog.Finished) (hdst : dst ≠ []) :
    Rewriting.Terminal (Step cap) (quiet (duo a b na ⟨u, .par [[.recv a dst]] l⟩ (bystanders st))) := by
  intro z hz
  cases hz with
  | @mk r i e n c hn hc =>
    rw [quiet_node] at hn
    by_cases hr : r = b
    · subst hr
      rw [duo_b hab] at hn
      cases hn with
      | @thread _ _ _ _ i t _ _ hi ht =>
        obtain ⟨-, rfl⟩ : i = 0 ∧ [.recv a dst] = t := by simpa [List.getElem?_singleton] using hi
        cases ht with
        | recvByte q x as t v =>
          -- No byte is in flight.
          cases hc with
          | inp hhead => cases hhead
        | recvDone => exact hdst rfl
      | join hts => simpa using hts _ (List.mem_singleton_self _)
    · have hfin : (duo a b na ⟨u, .par [[.recv a dst]] l⟩ (bystanders st) r).prog.Finished := by
        rw [duo, if_neg hr]
        split
        · exact ha
        · trivial
      generalize duo a b na ⟨u, .par [[.recv a dst]] l⟩ (bystanders st) r = m at hn hfin
      cases hn <;> exact hfin.elim

/-- The sender keeps sending, and the receiver is done. -/
structure OnlySends (a : ι) (y : Net ι κ β τ) : Prop where
  deaf : (y.node a).prog.Deaf
  others : ∀ r, r ≠ a → (y.node r).prog.Finished
  matched : y.matched

theorem OnlySends.step {y z : Net ι κ β τ} (h : OnlySends a y) (hs : Step cap y z) :
    OnlySends a z ∧ ∀ r, r ≠ a → z.node r = y.node r := by
  cases hs with
  | @mk r i e n c hn hc =>
    have hr : r = a := by
      by_contra hr
      have hfin := h.others r hr
      generalize y.node r = m at hn hfin
      cases hn <;> exact hfin.elim
    subst hr
    obtain ⟨hdeaf, hfits⟩ := hn.deaf h.deaf
    refine ⟨⟨by simpa using hdeaf, fun q hq => ?_, h.matched, hfits _⟩, fun q hq => ?_⟩
    · simpa [hq] using h.others q hq
    · simp [hq]

/-- Once the receiver is done, nothing is received any more. -/
theorem OnlySends.reaches {y z : Net ι κ β τ} (h : OnlySends a y) (hs : Reaches cap y z) :
    OnlySends a z ∧ ∀ r, r ≠ a → z.node r = y.node r := by
  induction hs with
  | refl => exact ⟨h, fun _ _ => rfl⟩
  | tail _ hstep ih =>
    obtain ⟨hz, heq⟩ := ih.1.step hstep
    exact ⟨hz, fun r hr => (heq r hr).trans (ih.2 r hr)⟩

end duo

end ForkJoin
