import Mathlib.Data.ENat.Basic
import Mathlib.Data.List.Lattice
import Mccl.Framework.Rewriting

/-! # Fork-Join Programs over FIFO Byte Channels

    A small language for programs that compute on a local memory, fork
    helper threads that send and receive memory ranges over byte channels,
    and join them. A *net* runs one such program per rank. The ranks are
    connected by one FIFO channel per ordered pair, of a given capacity.

    * **Programs** (`Proc`): local actions, errors, and fork-join blocks of
      threads. Each thread is a list of blocking `send` / `recv` calls.
    * **Semantics** (`Step`): one byte, one returning call, one join or one
      local action at a time, of any thread of any rank.
    * **Ghost tags**: a byte carries the tag that its sender had when it
      was sent; `Net.matched` records whether every byte so far was
      received under the tag it was sent with.
    * **Main result** (`step_commutes`): if in every fork-join block the
      threads touch different channel ends and do not race on memory, the
      steps of the net commute, for every capacity. -/

namespace ForkJoin

/-! ## Programs -/

/-- What a rank's program computes on: its memory, the rest of its local
    state, and the ghost tag of what it is working on. -/
structure Store (κ β τ : Type) where
  mem : κ → β
  aux : τ
  tag : Nat

/-- A blocking call of a thread: send the bytes at the addresses `src` to
    `peer`, or receive as many bytes as `dst` has addresses from it. -/
inductive Op (ι κ : Type) where
  | send (peer : ι) (src : List κ)
  | recv (peer : ι) (dst : List κ)

abbrev Thread (ι κ : Type) := List (Op ι κ)

inductive Proc (ι κ β τ α : Type) where
  | ret (a : α)
  /-- An exception that leaves the program. -/
  | raise (msg : String)
  /-- A local action: update the store, continue depending on the old one. -/
  | act (f : Store κ β τ → Store κ β τ) (k : Store κ β τ → Proc ι κ β τ α)
  /-- Fork the threads, join them all, continue. -/
  | par (ts : List (Thread ι κ)) (k : Proc ι κ β τ α)

variable {ι κ β τ : Type}

namespace Proc

def bind {α γ : Type} : Proc ι κ β τ α → (α → Proc ι κ β τ γ) → Proc ι κ β τ γ
  | ret a, g => g a
  | raise msg, _ => raise msg
  | act f k, g => act f fun s => (k s).bind g
  | par ts k, g => par ts (k.bind g)

/-- Run the program and hand its exception, if any, to `h`. -/
def tryCatch {α : Type} : Proc ι κ β τ α → (String → Proc ι κ β τ α) → Proc ι κ β τ α
  | ret a, _ => ret a
  | raise msg, h => h msg
  | act f k, h => act f fun s => (k s).tryCatch h
  | par ts k, h => par ts (k.tryCatch h)

instance : Monad (Proc ι κ β τ) where
  pure := ret
  bind := bind

variable {α γ : Type}

@[simp] theorem pure_eq (a : α) : (pure a : Proc ι κ β τ α) = ret a := rfl

@[simp] theorem ret_bind (a : α) (g : α → Proc ι κ β τ γ) :
    (ret a >>= g) = g a := rfl

@[simp] theorem raise_bind (msg : String) (g : α → Proc ι κ β τ γ) :
    ((raise msg : Proc ι κ β τ α) >>= g) = raise msg := rfl

@[simp] theorem act_bind (f : Store κ β τ → Store κ β τ)
    (k : Store κ β τ → Proc ι κ β τ α) (g : α → Proc ι κ β τ γ) :
    (act f k >>= g) = act f fun s => k s >>= g := rfl

@[simp] theorem par_bind (ts : List (Thread ι κ)) (k : Proc ι κ β τ α)
    (g : α → Proc ι κ β τ γ) : (par ts k >>= g) = par ts (k >>= g) := rfl

theorem bind_ret (p : Proc ι κ β τ α) : (p >>= ret) = p := by
  induction p with
  | ret a => rfl
  | raise msg => rfl
  | act f k ih => simp only [act_bind, ih]
  | par ts k ih => simp only [par_bind, ih]

theorem bind_assoc {δ : Type} (p : Proc ι κ β τ α) (g : α → Proc ι κ β τ γ)
    (h : γ → Proc ι κ β τ δ) : (p >>= g >>= h) = (p >>= fun a => g a >>= h) := by
  induction p with
  | ret a => rfl
  | raise msg => rfl
  | act f k ih => simp only [act_bind, ih]
  | par ts k ih => simp only [par_bind, ih]

instance : LawfulMonad (Proc ι κ β τ) := LawfulMonad.mk' _ bind_ret (fun _ _ => rfl) bind_assoc

/-- The current store. -/
def get : Proc ι κ β τ (Store κ β τ) := act id ret

/-- Update the store. -/
def modify (f : Store κ β τ → Store κ β τ) : Proc ι κ β τ Unit := act f fun _ => ret ()

/-- Fork the threads and join them. -/
def fork (ts : List (Thread ι κ)) : Proc ι κ β τ Unit := par ts (ret ())

/-- Raise `msg` unless the condition holds. -/
def check (c : Prop) [Decidable c] (msg : String) : Proc ι κ β τ Unit :=
  if c then ret () else raise msg

@[simp] theorem check_pos {c : Prop} [Decidable c] {msg : String} (h : c) :
    (check c msg : Proc ι κ β τ Unit) = ret () := if_pos h

end Proc

/-! ## Semantics -/

/-- A rank: its store and the rest of its program. -/
structure Node (ι κ β τ : Type) where
  store : Store κ β τ
  prog : Proc ι κ β τ Unit

/-- The ranks and the channels between them. -/
structure Net (ι κ β τ : Type) where
  node : ι → Node ι κ β τ
  /-- `chan p q`: the bytes sent by `p` and not yet received by `q`, oldest
      first, each with the tag of its sender. -/
  chan : ι → ι → List (Nat × β)
  /-- Every byte so far was received under the tag it was sent with. -/
  matched : Prop

/-- What a step of one rank does to the channels. -/
inductive Event (ι β : Type) where
  | tau
  | out (peer : ι) (x : Nat × β)
  | inp (peer : ι) (x : Nat × β)

/-- A received byte has the tag of the receiver. -/
def Event.Fits (tag : Nat) : Event ι β → Prop
  | .inp _ x => x.1 = tag
  | _ => True

section semantics
variable [DecidableEq κ]

def Store.write (s : Store κ β τ) (a : κ) (b : β) : Store κ β τ :=
  { s with mem := Function.update s.mem a b }

@[simp] theorem Store.write_tag (s : Store κ β τ) (a : κ) (b : β) : (s.write a b).tag = s.tag := rfl

@[simp] theorem Store.write_aux (s : Store κ β τ) (a : κ) (b : β) : (s.write a b).aux = s.aux := rfl

@[simp] theorem Store.write_mem_self (s : Store κ β τ) (a : κ) (b : β) : (s.write a b).mem a = b := by
  simp [Store.write]

@[simp] theorem Store.write_mem_ne (s : Store κ β τ) {a a' : κ} (b : β) (h : a' ≠ a) :
    (s.write a b).mem a' = s.mem a' := by
  simp [Store.write, h]

theorem Store.write_comm (s : Store κ β τ) {a a' : κ} (b b' : β) (h : a ≠ a') :
    (s.write a b).write a' b' = (s.write a' b').write a b := by
  simp only [Store.write, Function.update_comm h]

/-- One step of one thread: a byte moves, or a finished call returns. -/
inductive ThreadStep (s : Store κ β τ) :
    Thread ι κ → Event ι β → Store κ β τ → Thread ι κ → Prop where
  | sendByte (q : ι) (a : κ) (as : List κ) (t : Thread ι κ) :
      ThreadStep s (.send q (a :: as) :: t) (.out q (s.tag, s.mem a)) s (.send q as :: t)
  | sendDone (q : ι) (t : Thread ι κ) : ThreadStep s (.send q [] :: t) .tau s t
  | recvByte (q : ι) (a : κ) (as : List κ) (t : Thread ι κ) (x : Nat × β) :
      ThreadStep s (.recv q (a :: as) :: t) (.inp q x) (s.write a x.2) (.recv q as :: t)
  | recvDone (q : ι) (t : Thread ι κ) : ThreadStep s (.recv q [] :: t) .tau s t

/-- One step of one rank: of its thread `i` (`some i`) or of the program
    that forks and joins the threads (`none`). -/
inductive NodeStep : Node ι κ β τ → Option Nat → Event ι β → Node ι κ β τ → Prop where
  | thread {s s' : Store κ β τ} {ts : List (Thread ι κ)} {k : Proc ι κ β τ Unit} {i : Nat}
      {t t' : Thread ι κ} {e : Event ι β} (hi : ts[i]? = some t) (ht : ThreadStep s t e s' t') :
      NodeStep ⟨s, .par ts k⟩ (some i) e ⟨s', .par (ts.set i t') k⟩
  | join {s : Store κ β τ} {ts : List (Thread ι κ)} {k : Proc ι κ β τ Unit}
      (hts : ∀ t ∈ ts, t = []) : NodeStep ⟨s, .par ts k⟩ none .tau ⟨s, k⟩
  | act {s : Store κ β τ} {f : Store κ β τ → Store κ β τ}
      {k : Store κ β τ → Proc ι κ β τ Unit} :
      NodeStep ⟨s, .act f k⟩ none .tau ⟨f s, k s⟩

variable [DecidableEq ι]

def setChan (c : ι → ι → List (Nat × β)) (p q : ι) (l : List (Nat × β)) :
    ι → ι → List (Nat × β) :=
  Function.update c p (Function.update (c p) q l)

@[simp] theorem setChan_self (c : ι → ι → List (Nat × β)) (p q : ι) (l : List (Nat × β)) :
    setChan c p q l p q = l := by
  simp [setChan]

theorem setChan_ne (c : ι → ι → List (Nat × β)) {p q p' q' : ι} (l : List (Nat × β))
    (h : (p', q') ≠ (p, q)) : setChan c p q l p' q' = c p' q' := by
  by_cases hp : p' = p
  · subst hp
    have hq : q' ≠ q := fun hq => h (by rw [hq])
    simp [setChan, hq]
  · simp [setChan, hp]

theorem setChan_comm (c : ι → ι → List (Nat × β)) {p q p' q' : ι} (l l' : List (Nat × β))
    (h : (p', q') ≠ (p, q)) :
    setChan (setChan c p q l) p' q' l' = setChan (setChan c p' q' l') p q l := by
  funext x y
  by_cases h1 : (x, y) = (p, q)
  · obtain ⟨rfl, rfl⟩ := Prod.mk.inj h1
    rw [setChan_self, setChan_ne _ _ h.symm, setChan_self]
  · by_cases h2 : (x, y) = (p', q')
    · obtain ⟨rfl, rfl⟩ := Prod.mk.inj h2
      rw [setChan_self, setChan_ne _ _ h1, setChan_self]
    · rw [setChan_ne _ _ h2, setChan_ne _ _ h1, setChan_ne _ _ h1, setChan_ne _ _ h2]

@[simp] theorem setChan_setChan (c : ι → ι → List (Nat × β)) (p q : ι)
    (l l' : List (Nat × β)) : setChan (setChan c p q l) p q l' = setChan c p q l' := by
  simp [setChan]

theorem setChan_eq_self {c : ι → ι → List (Nat × β)} {p q : ι} {l : List (Nat × β)}
    (h : c p q = l) : setChan c p q l = c := by
  subst h
  simp [setChan]

/-- What an event of rank `r` does to channels of capacity `cap`. A send
    needs room in the channel, a receive needs a byte at its head. -/
inductive ChanStep (cap : ℕ∞) (r : ι) :
    Event ι β → (ι → ι → List (Nat × β)) → (ι → ι → List (Nat × β)) → Prop where
  | tau (c : ι → ι → List (Nat × β)) : ChanStep cap r .tau c c
  | out {c : ι → ι → List (Nat × β)} {q : ι} {x : Nat × β} (hroom : ((c r q).length : ℕ∞) < cap) :
      ChanStep cap r (.out q x) c (setChan c r q (c r q ++ [x]))
  | inp {c : ι → ι → List (Nat × β)} {q : ι} {x : Nat × β} {rest : List (Nat × β)}
      (hhead : c q r = x :: rest) : ChanStep cap r (.inp q x) c (setChan c q r rest)

/-- One step of the net: some rank takes a step. -/
inductive Step (cap : ℕ∞) : Net ι κ β τ → Net ι κ β τ → Prop where
  | mk {s : Net ι κ β τ} {r : ι} {i : Option Nat} {e : Event ι β} {n : Node ι κ β τ}
      {c : ι → ι → List (Nat × β)} (hn : NodeStep (s.node r) i e n)
      (hc : ChanStep cap r e s.chan c) :
      Step cap s ⟨Function.update s.node r n, c, s.matched ∧ e.Fits (s.node r).store.tag⟩

end semantics

/-! ## Race freedom -/

namespace Thread

/-- The peers that the thread sends to. -/
def sendPeers (t : Thread ι κ) : List ι :=
  t.filterMap fun | .send q _ => some q | .recv _ _ => none

/-- The peers that the thread receives from. -/
def recvPeers (t : Thread ι κ) : List ι :=
  t.filterMap fun | .send _ _ => none | .recv q _ => some q

/-- The addresses that the thread reads. -/
def reads (t : Thread ι κ) : List κ :=
  t.flatMap fun | .send _ src => src | .recv _ _ => []

/-- The addresses that the thread writes. -/
def writes (t : Thread ι κ) : List κ :=
  t.flatMap fun | .send _ _ => [] | .recv _ dst => dst

@[simp] theorem sendPeers_nil : sendPeers ([] : Thread ι κ) = [] := rfl
@[simp] theorem recvPeers_nil : recvPeers ([] : Thread ι κ) = [] := rfl
@[simp] theorem reads_nil : reads ([] : Thread ι κ) = [] := rfl
@[simp] theorem writes_nil : writes ([] : Thread ι κ) = [] := rfl

@[simp] theorem sendPeers_send (q : ι) (src : List κ) (t : Thread ι κ) :
    sendPeers (.send q src :: t) = q :: sendPeers t := rfl
@[simp] theorem sendPeers_recv (q : ι) (dst : List κ) (t : Thread ι κ) :
    sendPeers (.recv q dst :: t) = sendPeers t := rfl
@[simp] theorem recvPeers_send (q : ι) (src : List κ) (t : Thread ι κ) :
    recvPeers (.send q src :: t) = recvPeers t := rfl
@[simp] theorem recvPeers_recv (q : ι) (dst : List κ) (t : Thread ι κ) :
    recvPeers (.recv q dst :: t) = q :: recvPeers t := rfl
@[simp] theorem reads_send (q : ι) (src : List κ) (t : Thread ι κ) :
    reads (.send q src :: t) = src ++ reads t := rfl
@[simp] theorem reads_recv (q : ι) (dst : List κ) (t : Thread ι κ) :
    reads (.recv q dst :: t) = reads t := rfl
@[simp] theorem writes_send (q : ι) (src : List κ) (t : Thread ι κ) :
    writes (.send q src :: t) = writes t := rfl
@[simp] theorem writes_recv (q : ι) (dst : List κ) (t : Thread ι κ) :
    writes (.recv q dst :: t) = dst ++ writes t := rfl

/-- Two threads that share no channel end, and neither of which writes
    memory that the other uses. -/
structure Indep (t u : Thread ι κ) : Prop where
  sends : List.Disjoint (sendPeers t) (sendPeers u)
  recvs : List.Disjoint (recvPeers t) (recvPeers u)
  reads_writes : List.Disjoint (reads t) (writes u)
  writes_reads : List.Disjoint (writes t) (reads u)
  writes_writes : List.Disjoint (writes t) (writes u)

theorem Indep.symm {t u : Thread ι κ} (h : Indep t u) : Indep u t :=
  ⟨.symm h.sends, .symm h.recvs, .symm h.writes_reads, .symm h.reads_writes,
    .symm h.writes_writes⟩

instance : Std.Symm (Indep : Thread ι κ → Thread ι κ → Prop) := ⟨fun _ _ => Indep.symm⟩

/-- `t'` uses at most what `t` uses. -/
structure Within (t' t : Thread ι κ) : Prop where
  sends : sendPeers t' ⊆ sendPeers t
  recvs : recvPeers t' ⊆ recvPeers t
  reads : reads t' ⊆ reads t
  writes : writes t' ⊆ writes t

theorem Indep.mono {t t' u : Thread ι κ} (h : Indep t u) (hw : Within t' t) : Indep t' u :=
  ⟨List.disjoint_of_subset_left hw.sends h.sends, List.disjoint_of_subset_left hw.recvs h.recvs,
    List.disjoint_of_subset_left hw.reads h.reads_writes,
    List.disjoint_of_subset_left hw.writes h.writes_reads,
    List.disjoint_of_subset_left hw.writes h.writes_writes⟩

end Thread

/-- In every fork-join block that the program can reach, the threads are
    pairwise independent. -/
def Proc.RaceFree {α : Type} : Proc ι κ β τ α → Prop
  | .ret _ => True
  | .raise _ => True
  | .act _ k => ∀ s, (k s).RaceFree
  | .par ts k => ts.Pairwise Thread.Indep ∧ k.RaceFree

variable {α γ : Type} {p : Proc ι κ β τ α} {g : α → Proc ι κ β τ γ} {l : List α}

theorem Proc.RaceFree.bind (hp : p.RaceFree) (hg : ∀ a, (g a).RaceFree) : (p >>= g).RaceFree := by
  induction p with
  | ret a => exact hg a
  | raise msg => trivial
  | act f k ih => exact fun s => ih s (hp s)
  | par ts k ih => exact ⟨hp.1, ih hp.2⟩

/-- Every value that the program can return satisfies `A`. -/
def Proc.Returns {α : Type} (A : α → Prop) : Proc ι κ β τ α → Prop
  | .ret a => A a
  | .raise _ => True
  | .act _ k => ∀ s, (k s).Returns A
  | .par _ k => k.Returns A

theorem Proc.Returns.bind {A : α → Prop} {C : γ → Prop}
    (hp : p.Returns A) (hg : ∀ a, A a → (g a).Returns C) :
    (p >>= g).Returns C := by
  induction p with
  | ret a => exact hg a hp
  | raise msg => trivial
  | act f k ih => exact fun s => ih s (hp s)
  | par ts k ih => exact ih hp

/-- The rest of the program only has to be race-free after the values that
    its first part can return. -/
theorem Proc.RaceFree.bind_of {A : α → Prop} (hp : p.RaceFree) (hA : p.Returns A)
    (hg : ∀ a, A a → (g a).RaceFree) : (p >>= g).RaceFree := by
  induction p with
  | ret a => exact hg a hA
  | raise msg => trivial
  | act f k ih => exact fun s => ih s (hp s) (hA s)
  | par ts k ih => exact ⟨hp.1, ih hp.2 hA⟩

theorem Proc.RaceFree.tryCatch
    {h : String → Proc ι κ β τ α} (hp : p.RaceFree) (hh : ∀ msg, (h msg).RaceFree) :
    (p.tryCatch h).RaceFree := by
  induction p with
  | ret a => trivial
  | raise msg => exact hh msg
  | act f k ih => exact fun s => ih s (hp s)
  | par ts k ih => exact ⟨hp.1, ih hp.2⟩

theorem Proc.RaceFree.forM {g : α → Proc ι κ β τ PUnit}
    (hg : ∀ a ∈ l, (g a).RaceFree) : (ForM.forM l g).RaceFree := by
  induction l with
  | nil => trivial
  | cons a l ih =>
    rw [List.forM_cons]
    exact (hg a (by simp)).bind fun _ => ih fun b hb => hg b (by simp [hb])

/-- The values that a loop collects. -/
theorem Proc.Returns.mapM {A : α → γ → Prop}
    (hg : ∀ a ∈ l, (g a).Returns (A a)) : (l.mapM g).Returns (List.Forall₂ A l) := by
  induction l with
  | nil => exact .nil
  | cons a l ih =>
    rw [List.mapM_cons]
    exact (hg a (by simp)).bind fun b hb =>
      (ih fun a' ha' => hg a' (by simp [ha'])).bind fun bs hbs => .cons hb hbs

theorem Proc.RaceFree.mapM (hg : ∀ a ∈ l, (g a).RaceFree) : (l.mapM g).RaceFree := by
  induction l with
  | nil => trivial
  | cons a l ih =>
    rw [List.mapM_cons]
    exact (hg a (by simp)).bind fun b =>
      (ih fun a' ha' => hg a' (by simp [ha'])).bind fun bs => trivial

theorem Proc.RaceFree.get : (Proc.get : Proc ι κ β τ _).RaceFree := fun _ => trivial

theorem Proc.RaceFree.modify (f : Store κ β τ → Store κ β τ) :
    (Proc.modify f : Proc ι κ β τ Unit).RaceFree := fun _ => trivial

theorem Proc.RaceFree.check (c : Prop) [Decidable c] (msg : String) :
    (Proc.check c msg : Proc ι κ β τ Unit).RaceFree := by
  unfold Proc.check
  split <;> trivial

/-! ### Straight programs -/

/-- There is no fork-join block in the program. -/
def Proc.Straight {ι α : Type} : Proc ι κ β τ α → Prop
  | .ret _ => True
  | .raise _ => True
  | .act _ k => ∀ s, (k s).Straight
  | .par _ _ => False

namespace Proc.Straight

theorem raceFree (h : p.Straight) : p.RaceFree := by
  induction p with
  | ret a => trivial
  | raise msg => trivial
  | act f k ih => exact fun s => ih s (h s)
  | par ts k => exact h.elim

theorem bind (hp : p.Straight) (hg : ∀ a, (g a).Straight) : (p >>= g).Straight := by
  induction p with
  | ret a => exact hg a
  | raise msg => trivial
  | act f k ih => exact fun s => ih s (hp s)
  | par ts k => exact hp.elim

theorem tryCatch {h : String → Proc ι κ β τ α} (hp : p.Straight) (hh : ∀ msg, (h msg).Straight) :
    (p.tryCatch h).Straight := by
  induction p with
  | ret a => trivial
  | raise msg => exact hh msg
  | act f k ih => exact fun s => ih s (hp s)
  | par ts k => exact hp.elim

theorem forM {g : α → Proc ι κ β τ PUnit} (hg : ∀ a ∈ l, (g a).Straight) : (ForM.forM l g).Straight := by
  induction l with
  | nil => trivial
  | cons a l ih =>
    rw [List.forM_cons]
    exact (hg a (by simp)).bind fun _ => ih fun b hb => hg b (by simp [hb])

theorem mapM (hg : ∀ a ∈ l, (g a).Straight) : (l.mapM g).Straight := by
  induction l with
  | nil => trivial
  | cons a l ih =>
    rw [List.mapM_cons]
    exact (hg a (by simp)).bind fun _ => (ih fun b hb => hg b (by simp [hb])).bind fun _ => trivial

theorem get : (Proc.get : Proc ι κ β τ _).Straight := fun _ => trivial

theorem modify (f : Store κ β τ → Store κ β τ) :
    (Proc.modify f : Proc ι κ β τ Unit).Straight := fun _ => trivial

theorem check (c : Prop) [Decidable c] (msg : String) :
    (Proc.check c msg : Proc ι κ β τ Unit).Straight := by
  unfold Proc.check
  split <;> trivial

end Proc.Straight

section commute

/-! ### Thread lists -/

variable {t t' u : Thread ι κ} {e e₁ e₂ : Event ι β} {n : Node ι κ β τ} {i : Option Nat} {cap : ℕ∞}
  {r q : ι} {c : ι → ι → List (Nat × β)} {x : Nat × β} {s s' : Net ι κ β τ}

theorem pairwise_set {ts : List (Thread ι κ)} {i : Nat}
    (h : ts.Pairwise Thread.Indep) (hi : ts[i]? = some t) (hw : Thread.Within t' t) :
    (ts.set i t').Pairwise Thread.Indep := by
  induction ts generalizing i with
  | nil => simp at hi
  | cons u ts ih =>
    rw [List.pairwise_cons] at h
    cases i with
    | zero =>
      obtain rfl : u = t := by simpa using hi
      exact List.pairwise_cons.mpr ⟨fun v hv => (h.1 v hv).mono hw, h.2⟩
    | succ i =>
      have hi' : ts[i]? = some t := by simpa using hi
      refine List.pairwise_cons.mpr ⟨fun v hv => ?_, ih h.2 hi'⟩
      rcases List.mem_or_eq_of_mem_set hv with hv | rfl
      · exact h.1 v hv
      · exact ((h.1 t (List.mem_of_getElem? hi')).symm.mono hw).symm

theorem indep_of_ne {ts : List (Thread ι κ)} {i j : Nat}
    (h : ts.Pairwise Thread.Indep) (hi : ts[i]? = some t) (hj : ts[j]? = some u) (hij : i ≠ j) :
    Thread.Indep t u := by
  obtain ⟨hi', rfl⟩ := List.getElem?_eq_some_iff.mp hi
  obtain ⟨hj', rfl⟩ := List.getElem?_eq_some_iff.mp hj
  rw [List.pairwise_iff_getElem] at h
  rcases Nat.lt_or_gt_of_ne hij with hlt | hlt
  · exact h i j hi' hj' hlt
  · exact (h j i hj' hi' hlt).symm
variable [DecidableEq κ]

/-! ### Steps of two threads of one rank -/

theorem ThreadStep.within {s s' : Store κ β τ}
    (h : ThreadStep s t e s' t') : Thread.Within t' t := by
  cases h <;> constructor <;> intro x hx <;> simp_all

theorem ThreadStep.tag_eq {s s' : Store κ β τ} (h : ThreadStep s t e s' t') : s'.tag = s.tag := by
  cases h <;> rfl

/-- Two events of one rank that use different channel ends. -/
def Event.Apart : Event ι β → Event ι β → Prop
  | .out q _, .out q' _ => q' ≠ q
  | .inp q _, .inp q' _ => q' ≠ q
  | _, _ => True

theorem ThreadStep.apart {s s₁ s₂ : Store κ β τ} {u' : Thread ι κ}
    (ht : ThreadStep s t e₁ s₁ t') (hu : ThreadStep s u e₂ s₂ u') (hi : Thread.Indep t u) :
    e₁.Apart e₂ := by
  have hs := hi.sends
  have hr := hi.recvs
  cases ht <;> cases hu <;> simp_all [Event.Apart, List.disjoint_cons_left]

/-- Independent threads can step in either order. -/
theorem ThreadStep.comm {s s₁ s₂ : Store κ β τ} {u' : Thread ι κ}
    (ht : ThreadStep s t e₁ s₁ t') (hu : ThreadStep s u e₂ s₂ u') (hi : Thread.Indep t u) :
    ∃ s₃, ThreadStep s₁ u e₂ s₃ u' ∧ ThreadStep s₂ t e₁ s₃ t' := by
  cases ht with
  | sendByte q a as t =>
    cases hu with
    | recvByte q' a' as' t' x =>
      -- The byte that is sent is not the byte that is being received.
      have hne : a ≠ a' := fun h => hi.reads_writes (a := a) (by simp) (by simp [h])
      refine ⟨s.write a' x.2, .recvByte .., ?_⟩
      have := ThreadStep.sendByte (s := s.write a' x.2) q a as t
      rwa [Store.write_tag, Store.write_mem_ne _ _ hne] at this
    | _ => exact ⟨s, by constructor, .sendByte ..⟩
  | recvByte q a as t x =>
    cases hu with
    | sendByte q' a' as' t' =>
      have hne : a' ≠ a := fun h => hi.writes_reads (a := a) (by simp) (by simp [h])
      refine ⟨s.write a x.2, ?_, .recvByte ..⟩
      have := ThreadStep.sendByte (s := s.write a x.2) q' a' as' t'
      rwa [Store.write_tag, Store.write_mem_ne _ _ hne] at this
    | recvByte q' a' as' t' x' =>
      have hne : a ≠ a' := fun h => hi.writes_writes (a := a) (by simp) (by simp [h])
      refine ⟨(s.write a x.2).write a' x'.2, .recvByte .., ?_⟩
      rw [Store.write_comm _ _ _ hne]
      exact .recvByte ..
    | _ => exact ⟨s.write a x.2, by constructor, .recvByte ..⟩
  | sendDone q t => exact ⟨s₂, hu, .sendDone ..⟩
  | recvDone q t => exact ⟨s₂, hu, .recvDone ..⟩

/-! ### Steps of one rank -/

theorem NodeStep.raceFree {n' : Node ι κ β τ}
    (h : NodeStep n i e n') (hn : n.prog.RaceFree) : n'.prog.RaceFree := by
  cases h with
  | thread hi ht => exact ⟨pairwise_set hn.1 hi ht.within, hn.2⟩
  | join hts => exact hn.2
  | act => exact hn _

/-- Two different steps of one rank are steps of two of its threads. They
    can be taken in either order, with the same events. -/
theorem NodeStep.comm {n₁ n₂ : Node ι κ β τ} {j : Option Nat}
    (h₁ : NodeStep n i e₁ n₁) (h₂ : NodeStep n j e₂ n₂) (hij : i ≠ j) (hn : n.prog.RaceFree) :
    e₁.Apart e₂ ∧ n₁.store.tag = n.store.tag ∧ n₂.store.tag = n.store.tag ∧
      ∃ n₃, NodeStep n₁ j e₂ n₃ ∧ NodeStep n₂ i e₁ n₃ := by
  cases h₁ with
  | @thread s s₁ ts k i t t' e₁ hi ht =>
    cases h₂ with
    | @thread _ s₂ _ _ j u u' e₂ hj hu =>
      have hne : i ≠ j := fun h => hij (by rw [h])
      have hind := indep_of_ne hn.1 hi hj hne
      obtain ⟨s₃, hu', ht'⟩ := ht.comm hu hind
      refine ⟨ht.apart hu hind, ht.tag_eq, hu.tag_eq, ⟨s₃, .par ((ts.set i t').set j u') k⟩, ?_, ?_⟩
      · exact .thread (by rwa [List.getElem?_set_ne hne]) hu'
      · rw [List.set_comm _ _ hne]
        exact .thread (by rwa [List.getElem?_set_ne hne.symm]) ht'
    | join hts =>
      have := hts t (List.mem_of_getElem? hi)
      subst this
      cases ht
  | join hts =>
    cases h₂ with
    | thread hj hu =>
      have := hts _ (List.mem_of_getElem? hj)
      subst this
      cases hu
    | join _ => exact absurd rfl hij
  | act =>
    cases h₂
    exact absurd rfl hij

variable [DecidableEq ι]

/-- The step of a given thread is determined by the channels. -/
theorem NodeStep.det {n₁ n₂ : Node ι κ β τ} {c₁ c₂ : ι → ι → List (Nat × β)}
    (h₁ : NodeStep n i e₁ n₁) (h₂ : NodeStep n i e₂ n₂)
    (hc₁ : ChanStep cap r e₁ c c₁) (hc₂ : ChanStep cap r e₂ c c₂) :
    e₁ = e₂ ∧ n₁ = n₂ ∧ c₁ = c₂ := by
  cases h₁ with
  | thread hi ht =>
    cases h₂ with
    | thread hj hu =>
      obtain rfl : _ = _ := Option.some.inj (hi.symm.trans hj)
      cases ht <;> cases hu <;> cases hc₁ <;> cases hc₂ <;> simp_all
  | join _ | act =>
    cases h₂
    cases hc₁
    cases hc₂
    exact ⟨rfl, rfl, rfl⟩

/-! ### Channel effects -/

theorem ChanStep.out_of_eq {l : List (Nat × β)}
    {c' : ι → ι → List (Nat × β)} (hl : c r q = l) (hroom : (l.length : ℕ∞) < cap)
    (hc : c' = setChan c r q (l ++ [x])) : ChanStep cap r (.out q x) c c' := by
  subst hl hc
  exact .out hroom

theorem ChanStep.inp_of_eq {l : List (Nat × β)}
    {c' : ι → ι → List (Nat × β)} (hl : c q r = x :: l) (hc : c' = setChan c q r l) :
    ChanStep cap r (.inp q x) c c' := by
  subst hc
  exact .inp hl

/-- A send and a receive commute, also on the same channel: the send
    appends at the tail, the receive takes the head and only makes room. -/
theorem ChanStep.out_inp_comm {r' q' : ι} {x' : Nat × β} {l' : List (Nat × β)}
    (hroom : ((c r q).length : ℕ∞) < cap) (hhead : c q' r' = x' :: l') :
    ∃ c₃, ChanStep cap r' (.inp q' x') (setChan c r q (c r q ++ [x])) c₃ ∧
      ChanStep cap r (.out q x) (setChan c q' r' l') c₃ := by
  by_cases h : (q', r') = (r, q)
  · obtain ⟨rfl, rfl⟩ := Prod.mk.inj h
    have hroom' : (l'.length : ℕ∞) < cap := by
      refine lt_of_le_of_lt ?_ hroom
      rw [hhead, List.length_cons]
      exact_mod_cast Nat.le_succ _
    refine ⟨setChan c q' r' (l' ++ [x]), ?_, ?_⟩
    · exact .inp_of_eq (by rw [setChan_self, hhead, List.cons_append]) (setChan_setChan ..).symm
    · exact .out_of_eq (setChan_self ..) hroom' (setChan_setChan ..).symm
  · refine ⟨setChan (setChan c r q (c r q ++ [x])) q' r' l', ?_, ?_⟩
    · exact .inp (by rwa [setChan_ne _ _ h])
    · exact .out_of_eq (setChan_ne _ _ (Ne.symm h)) hroom (setChan_comm _ _ _ h)

theorem ChanStep.comm {r' : ι} {c₁ c₂ : ι → ι → List (Nat × β)}
    (h₁ : ChanStep cap r e₁ c c₁) (h₂ : ChanStep cap r' e₂ c c₂) (ha : r = r' → e₁.Apart e₂) :
    ∃ c₃, ChanStep cap r' e₂ c₁ c₃ ∧ ChanStep cap r e₁ c₂ c₃ := by
  cases h₁ with
  | tau c => exact ⟨c₂, h₂, .tau _⟩
  | @out _ q x hroom =>
    cases h₂ with
    | tau _ => exact ⟨_, .tau _, .out hroom⟩
    | @out _ q' x' hroom' =>
      have hne : (r', q') ≠ (r, q) := by
        intro h
        obtain ⟨rfl, rfl⟩ := Prod.mk.inj h
        exact ha rfl rfl
      exact ⟨_, .out_of_eq (setChan_ne _ _ hne) hroom' rfl,
        .out_of_eq (setChan_ne _ _ hne.symm) hroom (setChan_comm _ _ _ hne)⟩
    | inp hhead => exact out_inp_comm hroom hhead
  | @inp _ q x l hhead =>
    cases h₂ with
    | tau _ => exact ⟨_, .tau _, .inp hhead⟩
    | out hroom =>
      obtain ⟨c₃, hin, hout⟩ := out_inp_comm hroom hhead
      exact ⟨c₃, hout, hin⟩
    | @inp _ q' x' l' hhead' =>
      have hne : (q', r') ≠ (q, r) := by
        intro h
        obtain ⟨rfl, rfl⟩ := Prod.mk.inj h
        exact ha rfl rfl
      exact ⟨_, .inp_of_eq ((setChan_ne _ _ hne).trans hhead') rfl,
        .inp_of_eq ((setChan_ne _ _ hne.symm).trans hhead) (setChan_comm _ _ _ hne)⟩

/-! ### Steps of the net -/

def Net.RaceFree (s : Net ι κ β τ) : Prop := ∀ r, (s.node r).prog.RaceFree

theorem Step.of_eq {m : Node ι κ β τ} (hm : s.node r = m)
    (hn : NodeStep m i e n) (hc : ChanStep cap r e s.chan c)
    (hs : s' = ⟨Function.update s.node r n, c, s.matched ∧ e.Fits m.store.tag⟩) :
    Step cap s s' := by
  subst hm hs
  exact .mk hn hc

theorem Step.raceFree (hs : s.RaceFree) (h : Step cap s s') :
    s'.RaceFree := by
  cases h with
  | @mk r i e n c hn hc =>
    intro q
    by_cases hq : q = r
    · subst hq
      simpa using hn.raceFree (hs q)
    · simpa [hq] using hs q

/-- **Main theorem.** The steps of a race-free net commute, whatever the
    capacity of the channels. -/
theorem step_commutes (cap : ℕ∞) : Rewriting.Commutes (Step (β := β) (τ := τ) cap)
    (Net.RaceFree (ι := ι) (κ := κ)) where
  preserved := Step.raceFree
  diamond := by
    intro s a b hs ha hb
    cases ha with
    | @mk r i e₁ n₁ c₁ hn₁ hc₁ =>
    cases hb with
    | @mk q j e₂ n₂ c₂ hn₂ hc₂ =>
    by_cases hrq : r = q
    · subst hrq
      by_cases hij : i = j
      · subst hij
        obtain ⟨rfl, rfl, rfl⟩ := hn₁.det hn₂ hc₁ hc₂
        exact .inl rfl
      · obtain ⟨hapart, htag₁, htag₂, n₃, h₂, h₁⟩ := hn₁.comm hn₂ hij (hs r)
        obtain ⟨c₃, hc₂', hc₁'⟩ := hc₁.comm hc₂ fun _ => hapart
        refine .inr ⟨_, .of_eq (Function.update_self ..) h₂ hc₂' rfl,
          .of_eq (Function.update_self ..) h₁ hc₁' ?_⟩
        simp only [Function.update_idem, htag₁, htag₂, and_right_comm]
    · obtain ⟨c₃, hc₂', hc₁'⟩ := hc₁.comm hc₂ fun h => absurd h hrq
      refine .inr ⟨_, .of_eq (Function.update_of_ne (Ne.symm hrq) ..) hn₂ hc₂' rfl,
        .of_eq (Function.update_of_ne hrq ..) hn₁ hc₁' ?_⟩
      simp only [Function.update_comm hrq, and_right_comm]

/-! ## Outcomes

    A run is any sequence of steps. It is complete when every rank has
    returned or raised. -/

abbrev Reaches (cap : ℕ∞) : Net ι κ β τ → Net ι κ β τ → Prop := Relation.ReflTransGen (Step cap)

def Proc.Finished {α : Type} : Proc ι κ β τ α → Prop
  | .ret _ => True
  | .raise _ => True
  | _ => False

def Net.Finished (s : Net ι κ β τ) : Prop := ∀ r, (s.node r).prog.Finished

theorem Net.Finished.terminal (h : s.Finished) :
    Rewriting.Terminal (Step cap) s := by
  intro s' hstep
  cases hstep with
  | @mk r i e n c hn hc =>
    have hr := h r
    generalize s.node r = m at hr hn
    cases hn <;> exact hr

/-- What every step of a node keeps holds of a rank in every run. -/
theorem node_reaches {I : Node ι κ β τ → Prop} (hI : ∀ n i e n', NodeStep n i e n' → I n → I n')
    (h : Reaches cap s s') (hs : I (s.node r)) : I (s'.node r) := by
  induction h with
  | refl => exact hs
  | tail _ hstep ih =>
    cases hstep with
    | @mk q i e n c hn hc =>
      by_cases hq : r = q
      · subst hq
        simpa using hI _ _ _ _ hn ih
      · simpa [hq] using ih

theorem matched_of_reaches (h : Reaches cap s s') (hs' : s'.matched) : s.matched := by
  induction h with
  | refl => exact hs'
  | tail _ hstep ih =>
    cases hstep with
    | mk _ _ => exact ih hs'.1

/-- What one complete run of a race-free net says about all of its runs. -/
structure Outcome (cap : ℕ∞) (s f : Net ι κ β τ) : Prop where
  /-- Every run can be continued to `f`. -/
  reaches : ∀ {x}, Reaches cap s x → Reaches cap x f
  /-- Every complete run ends in `f`. -/
  unique : ∀ {x}, Reaches cap s x → x.Finished → x = f
  /-- No run is stuck before every rank has finished. -/
  progress : ∀ {x}, Reaches cap s x → ¬ x.Finished → ∃ y, Step cap x y
  /-- No run is infinite. -/
  terminates : Acc (fun b a => Step cap a b) s

/-- **One run decides all runs.** -/
theorem outcome_of_run {f : Net ι κ β τ} (hs : s.RaceFree) (hf : Reaches cap s f)
    (hfin : f.Finished) : Outcome cap s f where
  reaches := fun hx => (step_commutes cap).reaches_terminal hs hf hfin.terminal hx
  unique := fun hx hxf => (step_commutes cap).terminal_unique hs hf hfin.terminal hx hxf.terminal
  progress := by
    intro x hx hnot
    have hxf := (step_commutes cap).reaches_terminal hs hf hfin.terminal hx
    rcases Relation.ReflTransGen.cases_head hxf with rfl | ⟨y, hy, _⟩
    · exact absurd hfin hnot
    · exact ⟨y, hy⟩
  terminates := (step_commutes cap).terminates hs hf hfin.terminal

end commute

end ForkJoin
