import Mccl.Backend.PeerMesh

/-! # The Rounds of the Acceptor

    The loop of the acceptor thread in the constructor of `PeerMesh`
    (`backend/PeerMesh.cpp`), round by round. There are as many rounds as lower
    ranks, and a round in which something fails is not made up for.

    * `acceptLoop_done_iff`: the loop ends with a socket for every lower rank if and
      only if every round records a peer, and no peer twice.
    * `sockets_eq_acceptLoop`: in the construction of the whole mesh, the sockets that
      the acceptor of a rank has recorded are those of its loop.
    * `not_returned_of_missing`: once the acceptor has exited without a peer, that
      peer can go on connecting; the constructor never returns. -/

namespace Mccl

/-- A list with as many entries as a set has elements contains them all exactly if
    it has no gap and no element twice. -/
theorem forall_some_mem_iff {α : Type} {S : Finset α} {l : List (Option α)} (hlength : l.length = S.card)
    (hS : ∀ a, some a ∈ l → a ∈ S) : (∀ a ∈ S, some a ∈ l) ↔ none ∉ l ∧ l.Nodup := by
  have hnodup : (S.toList.map some).Nodup := S.nodup_toList.map (Option.some_injective α)
  have hlen : (S.toList.map some).length = l.length := by
    rw [List.length_map, Finset.length_toList, hlength]
  -- Either way one of the two lists is part of the other and as long.
  constructor
  · intro hall
    have hsub : S.toList.map some ⊆ l := by
      intro x hx
      obtain ⟨a, ha, rfl⟩ := List.mem_map.mp hx
      exact hall a (Finset.mem_toList.mp ha)
    have hperm := (List.subperm_of_subset hnodup hsub).perm_of_length_le hlen.ge
    constructor
    · intro hnone
      obtain ⟨a, -, ha⟩ := List.mem_map.mp (hperm.mem_iff.mpr hnone)
      cases ha
    · exact hperm.nodup_iff.mp hnodup
  · intro h a ha
    have hsub : l ⊆ S.toList.map some := by
      intro x hx
      cases x with
      | none => exact absurd hx h.1
      | some b => exact List.mem_map_of_mem (Finset.mem_toList.mpr (hS b hx))
    have hperm := (List.subperm_of_subset h.2 hsub).perm_of_length_le hlen.le
    exact hperm.mem_iff.mpr (List.mem_map_of_mem (Finset.mem_toList.mpr ha))

end Mccl

namespace Mccl.PeerMesh

variable {w : Nat}

/-! ## The Loop -/

/-- What a round of the acceptor meets. -/
inductive Outcome where
  /-- `::accept` fails. -/
  | error
  /-- `read_all` fails on connection `c`. -/
  | unread (c : Nat)
  /-- An id has been read, and the own one could be written or not. -/
  | hello (c : Nat) (peer : Int) (written : Bool)
  deriving DecidableEq, Repr

/-- The body of the loop, on rank `r`. -/
def acceptRound (r : Fin w) (peer_fds_ : Fin w → Option Socket) : Outcome → Fin w → Option Socket
  | .error => peer_fds_
  | .unread _ => peer_fds_
  | .hello c peer written =>
    -- Both checks close the connection and go on with the next round.
    if peer < 0 ∨ peer ≥ (r : Nat) then peer_fds_
    else if ¬written then peer_fds_
    -- A peer that connects again replaces its socket.
    else fun p => if (p : Nat) = peer then some (.server c) else peer_fds_ p

def acceptLoop (r : Fin w) (outcomes : List Outcome) : Fin w → Option Socket :=
  outcomes.foldl (acceptRound r) fun _ => none

/-- The lower rank that a round records. -/
def Outcome.recorded (r : Fin w) : Outcome → Option (Fin r)
  | .error => none
  | .unread _ => none
  | .hello _ peer written =>
    if h : 0 ≤ peer ∧ peer < (r : Nat) ∧ written then some ⟨peer.toNat, by omega⟩ else none

variable {r p : Fin w} {s : State w}

theorem foldl_acceptRound_congr {fds fds' : Fin w → Option Socket} (h : fds p = fds' p)
    (outcomes : List Outcome) :
    outcomes.foldl (acceptRound r) fds p = outcomes.foldl (acceptRound r) fds' p := by
  induction outcomes generalizing fds fds' with
  | nil => exact h
  | cons o outcomes ih =>
    apply ih
    cases o with
    | error | unread c => exact h
    | hello c peer written =>
      simp only [acceptRound]
      split_ifs <;> simp only [h]

theorem isSome_acceptRound (hp : p < r) (peer_fds_ : Fin w → Option Socket) (o : Outcome) :
    (acceptRound r peer_fds_ o p).isSome ↔ o.recorded r = some ⟨p, hp⟩ ∨ (peer_fds_ p).isSome := by
  cases o with
  | error | unread c => simp [acceptRound, Outcome.recorded]
  | hello c peer written =>
    unfold acceptRound Outcome.recorded
    dsimp only
    by_cases hrange : peer < 0 ∨ peer ≥ (r : Nat)
    · rw [if_pos hrange, dif_neg (by omega)]
      simp
    · cases written with
      | false => simp [hrange]
      | true =>
        rw [if_neg hrange, if_neg (by simp), dif_pos (by simp; omega)]
        by_cases heq : (p : Nat) = peer
        · simp [← heq]
        · have hne : peer.toNat ≠ p := by omega
          simp [heq, hne]

theorem isSome_foldl_acceptRound (hp : p < r) (outcomes : List Outcome)
    (peer_fds_ : Fin w → Option Socket) :
    (outcomes.foldl (acceptRound r) peer_fds_ p).isSome ↔
      some ⟨p, hp⟩ ∈ outcomes.map (Outcome.recorded r) ∨ (peer_fds_ p).isSome := by
  induction outcomes generalizing peer_fds_ with
  | nil => simp
  | cons o outcomes ih =>
    rw [List.foldl_cons, ih, isSome_acceptRound hp, List.map_cons, List.mem_cons, eq_comm (b := o.recorded r),
      ← or_assoc, or_comm (b := o.recorded r = _)]

theorem isSome_acceptLoop (hp : p < r) (outcomes : List Outcome) :
    (acceptLoop r outcomes p).isSome ↔ some ⟨p, hp⟩ ∈ outcomes.map (Outcome.recorded r) := by
  rw [acceptLoop, isSome_foldl_acceptRound hp]
  simp

/-- As many rounds as lower ranks have no room for a failure. -/
theorem isSome_acceptLoop_iff {outcomes : List Outcome} (hlength : outcomes.length = r) :
    (∀ p < r, (acceptLoop r outcomes p).isSome) ↔
      none ∉ outcomes.map (Outcome.recorded r) ∧ (outcomes.map (Outcome.recorded r)).Nodup := by
  have hcard : (outcomes.map (Outcome.recorded r)).length = (Finset.univ : Finset (Fin r)).card := by
    rw [List.length_map, hlength, Finset.card_univ, Fintype.card_fin]
  rw [← forall_some_mem_iff hcard fun a _ => Finset.mem_univ a]
  constructor
  · intro h a _
    have ha : (⟨a, a.2.trans r.2⟩ : Fin w) < r := a.2
    exact (isSome_acceptLoop ha outcomes).mp (h _ ha)
  · intro h p hp
    exact (isSome_acceptLoop hp outcomes).mpr (h _ (Finset.mem_univ _))

/-- **The acceptor is done** when its loop ends, that is, it has a socket for every
    lower rank, if and only if every round has recorded a peer and each another
    one. -/
theorem acceptLoop_done_iff (r : Fin w) (outcomes : Fin r → Outcome) :
    (∀ p < r, (acceptLoop r (List.ofFn outcomes) p).isSome) ↔
      (∀ i, ((outcomes i).recorded r).isSome) ∧ Function.Injective fun i => (outcomes i).recorded r := by
  rw [isSome_acceptLoop_iff (List.length_ofFn ..), List.map_ofFn, List.nodup_ofFn, List.mem_ofFn]
  constructor
  · intro h
    refine ⟨fun i => ?_, h.2⟩
    exact Option.isSome_iff_ne_none.mpr fun hnone => h.1 ⟨i, hnone⟩
  · intro h
    refine ⟨?_, h.2⟩
    intro hnone
    obtain ⟨i, hi⟩ := hnone
    exact Option.isSome_iff_ne_none.mp (h.1 i) hi

/-! ## In the Mesh -/

/-- The outcome of the round that ends when the acceptor goes from one point to
    another, if one does. A refused id counts as unread. -/
def Acceptor.ended : Acceptor w → Acceptor w → Option Outcome
  | accepting i, accepting j => if j = i + 1 then some .error else none
  | reading _ c, accepting _ => some (.unread c)
  | replying _ c peer, accepting _ => some (.hello c (peer : Nat) false)
  | recording _ c peer, accepting _ => some (.hello c (peer : Nat) true)
  | _, _ => none

/-- The mesh, and the rounds that the acceptors have ended, the oldest first
    (ghost). -/
structure Traced (w : Nat) where
  mesh : State w
  rounds : Fin w → List Outcome

namespace Traced

/-- The rounds that end when the mesh goes on to `s`. -/
def next (t : Traced w) (s : State w) : Traced w where
  mesh := s
  rounds r := t.rounds r ++ ((t.mesh.rank r).acceptor.ended (s.rank r).acceptor).toList

def Step (t : Traced w) (a : Act w) (t' : Traced w) : Prop :=
  ∃ s, PeerMesh.Step t.mesh a s ∧ t' = t.next s

end Traced

def traced (w : Nat) : System (Traced w) (Act w) :=
  ⟨fun t => init t.mesh ∧ t.rounds = fun _ => [], Traced.Step⟩

variable {t : Traced w}

theorem traced_next (h : (traced w).Reachable t) {a : Act w}
    (hs : Step t.mesh a s) : (traced w).Reachable (t.next s) :=
  h.next ⟨s, hs, rfl⟩

/-- The rounds change nothing about the mesh. -/
theorem reachable_of_traced (h : (traced w).Reachable t) : (mesh w).Reachable t.mesh := by
  induction h with
  | init h => exact .init h.1
  | step _ _ hs ih =>
    obtain ⟨s, hs, rfl⟩ := hs
    exact ih.next hs

/-- What a step may do to the acceptor of rank `r` and its sockets. -/
structure Rank.Moves (r : Fin w) (R R' : Rank w) : Prop where
  rounds : R'.acceptor.rounds r = R.acceptor.rounds r + (R.acceptor.ended R'.acceptor).toList.length
  sockets : ∀ p < r, R'.peer_fds_ p = (R.acceptor.ended R'.acceptor).toList.foldl (acceptRound r) R.peer_fds_ p
  exited : R.acceptor = .exited → R'.acceptor = .exited

namespace Rank.Moves

variable {r : Fin w} {R : Rank w}

theorem ended_self (a : Acceptor w) : a.ended a = none := by
  cases a <;> simp [Acceptor.ended]

/-- A step in which the acceptor is not involved. -/
theorem of_acceptor_eq {R' : Rank w} (hacc : R'.acceptor = R.acceptor)
    (hfds : ∀ p < r, R'.peer_fds_ p = R.peer_fds_ p) : Moves r R R' where
  rounds := by
    rw [hacc, ended_self]
    rfl
  sockets p hp := by
    rw [hacc, ended_self]
    exact hfds p hp
  exited h := hacc.trans h

theorem connect (a : Connector w) : Moves r R (R.connect a) := of_acceptor_eq rfl fun _ _ => rfl

/-- A step of the acceptor that records nothing. -/
theorem of_accept {a a' : Acceptor w} (hacc : R.acceptor = a) (hrun : a ≠ .exited)
    (hrounds : a'.rounds r = a.rounds r + (a.ended a').toList.length)
    (hkeep : (a.ended a').toList.foldl (acceptRound r) R.peer_fds_ = R.peer_fds_) :
    Moves r R (R.accept a') where
  rounds := by
    rw [hacc]
    exact hrounds
  sockets p _ := by
    rw [hacc]
    exact (congrFun hkeep p).symm
  exited h := absurd (hacc.symm.trans h) hrun

theorem record {i c : Nat} {peer : Fin w} (hacc : R.acceptor = .recording i c peer) (hpeer : peer < r) :
    Moves r R ((R.record peer (.server c)).accept (.accepting (i + 1))) where
  rounds := by
    rw [hacc]
    rfl
  sockets p _ := by
    rw [hacc]
    have hrange : ¬(((peer : Nat) : Int) < 0 ∨ ((peer : Nat) : Int) ≥ (r : Nat)) := by omega
    show (R.record peer (.server c)).peer_fds_ p = acceptRound r R.peer_fds_ (.hello c (peer : Nat) true) p
    rw [acceptRound, if_neg hrange, if_neg (by simp)]
    by_cases heq : p = peer
    · rw [heq, peer_fds_record_self, if_pos rfl]
    · rw [peer_fds_record_of_ne heq, if_neg]
      exact fun hcast => heq (Fin.ext (by exact_mod_cast hcast))
  exited h := by
    rw [hacc] at h
    cases h

theorem setRank {s : State w} {r₀ : Fin w} (h : Moves r₀ (s.rank r₀) R) (r : Fin w) :
    Moves r (s.rank r) ((s.setRank r₀ R).rank r) := by
  by_cases heq : r = r₀
  · subst heq
    have hself : (s.setRank r R).rank r = R := Function.update_self ..
    rwa [hself]
  · have hother : (s.setRank r₀ R).rank r = s.rank r := Function.update_of_ne heq ..
    rw [hother]
    exact of_acceptor_eq rfl fun _ _ => rfl

end Rank.Moves

theorem step_moves {s' : State w} {a : Act w} (h : Inv s) (hs : Step s a s') (r : Fin w) :
    (s.rank r).Moves r (s'.rank r) := by
  cases hs with
  | connect r₀ p dst hcon hnew | greet r₀ hcon hC =>
    exact Rank.Moves.setRank (s := s.setConn _ _) (.connect _) r
  | close r₀ hcon => exact Rank.Moves.setRank (.connect _) r
  | @agree r₀ p c C hcon hC hgot =>
    -- the connector records sockets for higher ranks only
    have hlt := ((h.rank r₀).attempt p c (.inr hcon)).1
    apply Rank.Moves.setRank
    exact .of_acceptor_eq rfl fun q hq => Rank.peer_fds_record_of_ne (hq.trans hlt).ne
  | fail r₀ hcon hp | join r₀ hcon | complete r₀ hcon hexit hall
  | missing r₀ p hcon hexit hp hnone => exact Rank.Moves.setRank (.connect _) r
  | accept r₀ hacc hi hC hdst hnew | read r₀ hacc hC hhello hpeer | reply r₀ hacc hC | reject r₀ hacc
  | exit r₀ hacc => exact Rank.Moves.setRank (.of_accept hacc (by simp) rfl rfl) r
  | error r₀ hacc hi =>
    apply Rank.Moves.setRank
    exact .of_accept hacc (by simp) (by simp [Acceptor.ended, Acceptor.rounds])
      (by simp [Acceptor.ended, acceptRound])
  | drop r₀ hacc =>
    apply Rank.Moves.setRank
    exact .of_accept hacc (by simp) rfl (by simp [Acceptor.ended, acceptRound])
  | @record r₀ i c peer hacc =>
    exact Rank.Moves.setRank (.record hacc ((h.rank r₀).peer i c peer (.inr hacc)).1) r

/-- The rounds account for the acceptors. -/
structure Traced.Ok (t : Traced w) : Prop where
  mesh : Inv t.mesh
  length : ∀ r, (t.rounds r).length = (t.mesh.rank r).acceptor.rounds r
  sockets : ∀ r, ∀ p < r, (t.mesh.rank r).peer_fds_ p = acceptLoop r (t.rounds r) p

theorem traced_ok (h : (traced w).Reachable t) : t.Ok := by
  refine h.invariant ?_ ?_
  · rintro ⟨_, _⟩ ⟨rfl, rfl⟩
    exact ⟨Inv.init_inv rfl, fun r => rfl, fun r p _ => rfl⟩
  · rintro t a _ ht _ ⟨s, hs, rfl⟩
    have hmoves := step_moves ht.mesh hs
    refine ⟨ht.mesh.step hs, fun r => ?_, fun r p hp => ?_⟩
    · show (t.rounds r ++ _).length = (s.rank r).acceptor.rounds r
      rw [List.length_append, ht.length, (hmoves r).rounds]
    · show (s.rank r).peer_fds_ p = acceptLoop r (t.rounds r ++ _) p
      rw [(hmoves r).sockets p hp, acceptLoop, List.foldl_append]
      exact foldl_acceptRound_congr (ht.sockets r p hp) _

/-- **The loop of the mesh**: when the acceptor of rank `r` has exited, it has gone
    through `r` rounds and has the sockets that these record. -/
theorem sockets_eq_acceptLoop (h : (traced w).Reachable t)
    (hexit : (t.mesh.rank r).acceptor = .exited) :
    (t.rounds r).length = r ∧ ∀ p < r, (t.mesh.rank r).peer_fds_ p = acceptLoop r (t.rounds r) p := by
  have hok := traced_ok h
  refine ⟨?_, hok.sockets r⟩
  rw [hok.length, hexit]
  rfl

/-- The only round of rank 1 fails. -/
theorem sockets_eq_acceptLoop_error : ∃ t : Traced 2, (traced 2).Reachable t ∧ (t.rounds 1).length = 1 ∧
    ∀ p < 1, (t.mesh.rank 1).peer_fds_ p = acceptLoop 1 (t.rounds 1) p := by
  have h0 : (traced 2).Reachable ⟨_, fun _ => []⟩ := .init ⟨rfl, rfl⟩
  have h1 := traced_next (a := Act.acceptor 1) h0 (Step.error 1 rfl (by decide))
  have h2 := traced_next (a := Act.acceptor 1) h1 (Step.exit 1 rfl)
  exact ⟨_, h2, sockets_eq_acceptLoop h2 rfl⟩

/-- **A used-up slot**: when the acceptor of rank `r` has exited without a socket for
    `p`, the constructor on `r` never returns, however often `p` connects. -/
theorem not_returned_of_missing {s' : State w} (h : (mesh w).Reachable s) (hp : p < r)
    (hexit : (s.rank r).acceptor = .exited) (hnone : (s.rank r).peer_fds_ p = none) {l : List (Act w)}
    (hs : (mesh w).Steps s l s') : (s'.rank r).connector ≠ .returned := by
  induction hs with
  | nil s =>
    intro hreturned
    have hsome := (((Inv.of_reachable h).rank r).returned hreturned).2 p hp.ne
    rw [hnone] at hsome
    cases hsome
  | @cons s s₁ s₂ a l hstep _ ih =>
    have hmoves := step_moves (Inv.of_reachable h) hstep r
    have hexit' := hmoves.exited hexit
    apply ih (h.next hstep) hexit'
    rw [hmoves.sockets p hp, hexit, hexit']
    exact hnone

/-- `accept` fails once on rank 1. The connection of rank 0 is never accepted, and the
    acceptor has exited without a socket for it. -/
theorem acceptor_exits_early : ∃ t : Traced 2, (traced 2).Reachable t ∧
    (t.mesh.rank 1).acceptor = .exited ∧ t.rounds 1 = [.error] ∧ (t.mesh.rank 1).peer_fds_ 0 = none ∧
    (∃ C, t.mesh.conn 0 = some C ∧ C.src = 0 ∧ C.dst = 1 ∧ C.hello = some 0 ∧ C.accepted = false) ∧
    ∀ l s, (mesh 2).Steps t.mesh l s → (s.rank 1).connector ≠ .returned := by
  have h0 : (traced 2).Reachable ⟨_, fun _ => []⟩ := .init ⟨rfl, rfl⟩
  have h1 := traced_next (a := Act.connector 0) h0 (Step.connect 0 1 1 (c := 0) rfl rfl)
  have h2 := traced_next (a := Act.connector 0) h1 (Step.greet 0 rfl rfl)
  have h3 := traced_next (a := Act.acceptor 1) h2 (Step.error 1 rfl (by decide))
  have h4 := traced_next (a := Act.acceptor 1) h3 (Step.exit 1 rfl)
  refine ⟨_, h4, rfl, rfl, rfl, ⟨_, rfl, rfl, rfl, rfl, rfl⟩, fun l s hs => ?_⟩
  exact not_returned_of_missing (reachable_of_traced h4) (p := 0) (by decide) rfl rfl hs

end Mccl.PeerMesh
