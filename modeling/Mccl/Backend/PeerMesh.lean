import Mathlib.Data.Fintype.Fin
import Mccl.Framework.System

/-! # Construction of the Mesh

    Model of the constructor of `PeerMesh` (`backend/PeerMesh.cpp`) on all ranks
    at once: every rank connects to the higher ranks, one after the other, while
    its acceptor thread takes the connections of the lower ones.

    * **Connections** are numbered. What the two sides write on one is an id
      each; a connection that its client has given up can still be accepted.
    * **Slots**: rank `r`'s acceptor makes `r` rounds, whatever becomes of them.
    * `endpoints_agree`: the socket that `p` keeps for `r` and the one that `r`
      keeps for `p` are the ends of one connection. Each of the `r` rounds
      records at most one peer; if all `r` peers are recorded, none has been
      recorded twice, so nothing has been overwritten. -/

namespace Mccl.PeerMesh

open Function

variable {w : Nat}

/-! ## State -/

/-- The two ends of connection `c`. -/
inductive Socket where
  | client (c : Nat)
  | server (c : Nat)

/-- A TCP connection that `src` has opened and that has reached the listener
    of `dst`. -/
structure Conn (w : Nat) where
  src : Fin w
  dst : Fin w
  accepted : Bool
  /-- The id that the client has written in full. -/
  hello : Option (Fin w)
  /-- The id that the acceptor has written in full. -/
  reply : Option (Fin w)

/-- Where the constructor is. -/
inductive Connector (w : Nat) where
  /-- In the loop for peer `p`, without an open attempt. -/
  | connecting (p : Nat)
  /-- `::connect` has succeeded. -/
  | connected (p : Fin w) (c : Nat)
  /-- The own id has been written; it reads the answer. -/
  | greeted (p : Fin w) (c : Nat)
  /-- In `acceptor.join()`. -/
  | joining
  | returned
  | raised

/-- Where the acceptor thread is, in round `i` of its loop. -/
inductive Acceptor (w : Nat) where
  | accepting (i : Nat)
  | reading (i c : Nat)
  | replying (i c : Nat) (peer : Fin w)
  /-- `write_all` has succeeded. -/
  | recording (i c : Nat) (peer : Fin w)
  | exited

structure Rank (w : Nat) where
  connector : Connector w
  acceptor : Acceptor w
  peer_fds_ : Fin w → Option Socket

structure State (w : Nat) where
  conn : Nat → Option (Conn w)
  rank : Fin w → Rank w

namespace State

def setConn (s : State w) (c : Nat) (C : Conn w) : State w :=
  { s with conn := Function.update s.conn c (some C) }

def setRank (s : State w) (r : Fin w) (R : Rank w) : State w :=
  { s with rank := Function.update s.rank r R }

end State

namespace Rank

def connect (R : Rank w) (a : Connector w) : Rank w := { R with connector := a }

def accept (R : Rank w) (a : Acceptor w) : Rank w := { R with acceptor := a }

/-- `peer_fds_[p] = socket`. -/
def record (R : Rank w) (p : Fin w) (socket : Socket) : Rank w :=
  { R with peer_fds_ := Function.update R.peer_fds_ p (some socket) }

end Rank

/-! ## Steps -/

/-- The thread that moves. -/
inductive Act (w : Nat) where
  | connector (r : Fin w)
  | acceptor (r : Fin w)

inductive Step : State w → Act w → State w → Prop where
  /-- An attempt: the address that `p` has advertised leads to the listener of
      some rank. -/
  | connect {s : State w} (r p dst : Fin w) {c : Nat} (h : (s.rank r).connector = .connecting p)
      (hc : s.conn c = none) :
      Step s (.connector r)
        ((s.setConn c ⟨r, dst, false, none, none⟩).setRank r ((s.rank r).connect (.connected p c)))
  | greet {s : State w} (r : Fin w) {p : Fin w} {c : Nat} {C : Conn w}
      (h : (s.rank r).connector = .connected p c) (hc : s.conn c = some C) :
      Step s (.connector r)
        ((s.setConn c { C with hello := some r }).setRank r ((s.rank r).connect (.greeted p c)))
  /-- The write or the read fails or times out, or another rank answers: the
      attempt is closed. -/
  | close {s : State w} (r : Fin w) {p : Fin w} {c : Nat}
      (h : (s.rank r).connector = .connected p c ∨ (s.rank r).connector = .greeted p c) :
      Step s (.connector r) (s.setRank r ((s.rank r).connect (.connecting p)))
  | agree {s : State w} (r : Fin w) {p : Fin w} {c : Nat} {C : Conn w}
      (h : (s.rank r).connector = .greeted p c) (hc : s.conn c = some C) (hgot : C.reply = some p) :
      Step s (.connector r)
        (s.setRank r (((s.rank r).record p (.client c)).connect (.connecting (p + 1))))
  /-- The deadline has passed, or no address of the peer can be used. -/
  | fail {s : State w} (r : Fin w) {p : Nat} (h : (s.rank r).connector = .connecting p) (hp : p < w) :
      Step s (.connector r) (s.setRank r ((s.rank r).connect .raised))
  | join {s : State w} (r : Fin w) (h : (s.rank r).connector = .connecting w) :
      Step s (.connector r) (s.setRank r ((s.rank r).connect .joining))
  | complete {s : State w} (r : Fin w) (h : (s.rank r).connector = .joining)
      (hexit : (s.rank r).acceptor = .exited)
      (hall : ∀ p, p ≠ r → ((s.rank r).peer_fds_ p).isSome) :
      Step s (.connector r) (s.setRank r ((s.rank r).connect .returned))
  | missing {s : State w} (r p : Fin w) (h : (s.rank r).connector = .joining)
      (hexit : (s.rank r).acceptor = .exited) (hp : p ≠ r) (hnone : (s.rank r).peer_fds_ p = none) :
      Step s (.connector r) (s.setRank r ((s.rank r).connect .raised))
  | accept {s : State w} (r : Fin w) {i c : Nat} {C : Conn w} (h : (s.rank r).acceptor = .accepting i)
      (hi : i < r) (hc : s.conn c = some C) (hdst : C.dst = r) (hnew : C.accepted = false) :
      Step s (.acceptor r)
        ((s.setConn c { C with accepted := true }).setRank r ((s.rank r).accept (.reading i c)))
  /-- `::accept` fails. -/
  | error {s : State w} (r : Fin w) {i : Nat} (h : (s.rank r).acceptor = .accepting i) (hi : i < r) :
      Step s (.acceptor r) (s.setRank r ((s.rank r).accept (.accepting (i + 1))))
  | read {s : State w} (r : Fin w) {i c : Nat} {C : Conn w} {peer : Fin w}
      (h : (s.rank r).acceptor = .reading i c) (hc : s.conn c = some C) (hhello : C.hello = some peer)
      (hpeer : peer < r) :
      Step s (.acceptor r) (s.setRank r ((s.rank r).accept (.replying i c peer)))
  /-- Nothing can be read, or the id is not one of a lower rank. -/
  | reject {s : State w} (r : Fin w) {i c : Nat} (h : (s.rank r).acceptor = .reading i c) :
      Step s (.acceptor r) (s.setRank r ((s.rank r).accept (.accepting (i + 1))))
  | reply {s : State w} (r : Fin w) {i c : Nat} {C : Conn w} {peer : Fin w}
      (h : (s.rank r).acceptor = .replying i c peer) (hc : s.conn c = some C) :
      Step s (.acceptor r)
        ((s.setConn c { C with reply := some r }).setRank r ((s.rank r).accept (.recording i c peer)))
  /-- The answer cannot be written. -/
  | drop {s : State w} (r : Fin w) {i c : Nat} {peer : Fin w}
      (h : (s.rank r).acceptor = .replying i c peer) :
      Step s (.acceptor r) (s.setRank r ((s.rank r).accept (.accepting (i + 1))))
  | record {s : State w} (r : Fin w) {i c : Nat} {peer : Fin w}
      (h : (s.rank r).acceptor = .recording i c peer) :
      Step s (.acceptor r)
        (s.setRank r (((s.rank r).record peer (.server c)).accept (.accepting (i + 1))))
  | exit {s : State w} (r : Fin w) (h : (s.rank r).acceptor = .accepting r) :
      Step s (.acceptor r) (s.setRank r ((s.rank r).accept .exited))

/-- The acceptor has been started and the loop begins with the next rank. -/
def init (s : State w) : Prop :=
  s = ⟨fun _ => none, fun r => ⟨.connecting (r + 1), .accepting 0, fun _ => none⟩⟩

/-- The constructors of `w` ranks. -/
def mesh (w : Nat) : System (State w) (Act w) := ⟨init, Step⟩

/-! ## Counting the Rounds -/

/-- The rounds that the acceptor of rank `r` has ended. -/
def Acceptor.rounds (r : Nat) : Acceptor w → Nat
  | accepting i | reading i _ | replying i _ _ | recording i _ _ => i
  | exited => r

/-- The connection that the acceptor has in hand. -/
def Acceptor.serving : Acceptor w → Option Nat
  | reading _ c | replying _ c _ | recording _ c _ => some c
  | accepting _ | exited => none

namespace Rank

/-- The lower ranks of which a socket is recorded. -/
def recorded (R : Rank w) (r : Fin w) : Finset (Fin w) :=
  Finset.univ.filter fun p => p < r ∧ (R.peer_fds_ p).isSome

variable {R : Rank w} {r p q : Fin w} {socket : Socket}

@[simp] theorem mem_recorded : p ∈ R.recorded r ↔ p < r ∧ (R.peer_fds_ p).isSome := by
  simp [recorded]

theorem card_recorded_of_all (h : ∀ p, p ≠ r → (R.peer_fds_ p).isSome) : (R.recorded r).card = r := by
  have hall : R.recorded r = Finset.Iio r := by
    ext p
    simpa using fun hp : p < r => h p hp.ne
  rw [hall, Fin.card_Iio]

@[simp] theorem peer_fds_record_self : (R.record p socket).peer_fds_ p = some socket :=
  update_self ..

theorem peer_fds_record_of_ne (h : q ≠ p) : (R.record p socket).peer_fds_ q = R.peer_fds_ q :=
  update_of_ne h ..

theorem card_record_le : ((R.record p socket).recorded r).card ≤ (R.recorded r).card + 1 := by
  refine (Finset.card_le_card fun q hq => ?_).trans (Finset.card_insert_le p _)
  by_cases heq : q = p
  · simp [heq]
  · simpa [peer_fds_record_of_ne heq, heq] using hq

theorem recorded_record_of_isSome (h : (R.peer_fds_ p).isSome) :
    (R.record p socket).recorded r = R.recorded r := by
  ext q
  by_cases heq : q = p
  · simp [heq, h]
  · simp [peer_fds_record_of_ne heq]

theorem recorded_record_of_lt (h : r < p) : (R.record p socket).recorded r = R.recorded r := by
  ext q
  by_cases heq : q = p
  · simp [heq, h.not_gt]
  · simp [peer_fds_record_of_ne heq]

end Rank

/-! ## Agreement -/

/-- What holds of rank `r` over the connections `conn`. -/
structure Rank.Ok (conn : Nat → Option (Conn w)) (r : Fin w) (R : Rank w) : Prop where
  attempt : ∀ p c, R.connector = .connected p c ∨ R.connector = .greeted p c →
    r < p ∧ ∃ C, conn c = some C ∧ C.src = r
  next : ∀ p, R.connector = .connecting p → r < p
  returned : R.connector = .returned → R.acceptor = .exited ∧ ∀ p, p ≠ r → (R.peer_fds_ p).isSome
  client : ∀ p socket, r < p → R.peer_fds_ p = some socket →
    ∃ c C, socket = .client c ∧ conn c = some C ∧ C.src = r ∧ C.reply = some p
  serving : ∀ c, R.acceptor.serving = some c → ∃ C, conn c = some C ∧ C.dst = r
  peer : ∀ i c peer, R.acceptor = .replying i c peer ∨ R.acceptor = .recording i c peer →
    peer < r ∧ ∃ C, conn c = some C ∧ C.src = peer
  /-- Every round records at most one peer. -/
  slots : (R.recorded r).card ≤ R.acceptor.rounds r

/-- Connection `c`, which its acceptor has answered, is recorded or about to be,
    or a round has been used up for nothing. -/
def Rank.Keeps (R : Rank w) (r : Fin w) (c : Nat) (peer : Fin w) : Prop :=
  (∃ i, R.acceptor = .recording i c peer) ∨ R.peer_fds_ peer = some (.server c) ∨
    (R.recorded r).card < R.acceptor.rounds r

/-- What holds of connection `c`. -/
structure Conn.Ok (rank : Fin w → Rank w) (c : Nat) (C : Conn w) : Prop where
  hello : ∀ id, C.hello = some id → id = C.src
  reply : ∀ id, C.reply = some id → id = C.dst ∧ C.src < C.dst ∧ (rank C.dst).Keeps C.dst c C.src

structure Inv (s : State w) : Prop where
  rank : ∀ r, (s.rank r).Ok s.conn r
  conn : ∀ c C, s.conn c = some C → C.Ok s.rank c

/-- Connections keep their ends and what has been answered on them. -/
def Extends (conn conn' : Nat → Option (Conn w)) : Prop :=
  ∀ c C, conn c = some C → ∃ C', conn' c = some C' ∧ C'.src = C.src ∧ C'.dst = C.dst ∧
    ∀ id, C.reply = some id → C'.reply = some id

namespace Rank.Ok

variable {conn conn' : Nat → Option (Conn w)} {r : Fin w} {R : Rank w}

theorem mono (hext : Extends conn conn') (h : R.Ok conn r) : R.Ok conn' r where
  attempt p c hc := by
    obtain ⟨hlt, C, hC, hsrc⟩ := h.attempt p c hc
    obtain ⟨C', hC', hsrc', -⟩ := hext c C hC
    exact ⟨hlt, C', hC', hsrc'.trans hsrc⟩
  next := h.next
  returned := h.returned
  client p socket hlt hs := by
    obtain ⟨c, C, hsocket, hC, hsrc, hreply⟩ := h.client p socket hlt hs
    obtain ⟨C', hC', hsrc', -, hreply'⟩ := hext c C hC
    exact ⟨c, C', hsocket, hC', hsrc'.trans hsrc, hreply' p hreply⟩
  serving c hc := by
    obtain ⟨C, hC, hdst⟩ := h.serving c hc
    obtain ⟨C', hC', -, hdst', -⟩ := hext c C hC
    exact ⟨C', hC', hdst'.trans hdst⟩
  peer i c peer ha := by
    obtain ⟨hlt, C, hC, hsrc⟩ := h.peer i c peer ha
    obtain ⟨C', hC', hsrc', -⟩ := hext c C hC
    exact ⟨hlt, C', hC', hsrc'.trans hsrc⟩
  slots := h.slots

theorem connect (h : R.Ok conn r) {a : Connector w}
    (hattempt : ∀ p c, a = .connected p c ∨ a = .greeted p c → r < p ∧ ∃ C, conn c = some C ∧ C.src = r)
    (hnext : ∀ p, a = .connecting p → r < p)
    (hreturned : a = .returned → R.acceptor = .exited ∧ ∀ p, p ≠ r → (R.peer_fds_ p).isSome) :
    (R.connect a).Ok conn r :=
  { h with attempt := hattempt, next := hnext, returned := hreturned }

theorem accept (h : R.Ok conn r) (hrun : R.acceptor ≠ .exited) {a : Acceptor w}
    (hserving : ∀ c, a.serving = some c → ∃ C, conn c = some C ∧ C.dst = r)
    (hpeer : ∀ i c peer, a = .replying i c peer ∨ a = .recording i c peer →
      peer < r ∧ ∃ C, conn c = some C ∧ C.src = peer)
    (hrounds : R.acceptor.rounds r ≤ a.rounds r) : (R.accept a).Ok conn r :=
  { h with
    returned := fun hret => absurd (h.returned hret).1 hrun
    serving := hserving
    peer := hpeer
    slots := h.slots.trans hrounds }

theorem record_client (h : R.Ok conn r) {p : Fin w} {c : Nat} {C : Conn w} (hlt : r < p)
    (hC : conn c = some C) (hsrc : C.src = r) (hreply : C.reply = some p)
    (hconn : R.connector ≠ .returned) : (R.record p (.client c)).Ok conn r :=
  { h with
    returned := fun hret => absurd hret hconn
    client := fun q socket hq hs => by
      by_cases heq : q = p
      · subst heq
        rw [peer_fds_record_self] at hs
        exact ⟨c, C, (Option.some.inj hs).symm, hC, hsrc, hreply⟩
      · rw [peer_fds_record_of_ne heq] at hs
        exact h.client q socket hq hs
    slots := by
      rw [recorded_record_of_lt hlt]
      exact h.slots }

/-- A round ends with a socket for `peer`. -/
theorem record_server (h : R.Ok conn r) {i c : Nat} {peer : Fin w}
    (ha : R.acceptor = .recording i c peer) :
    ((R.record peer (.server c)).accept (.accepting (i + 1))).Ok conn r := by
  have hlt := (h.peer i c peer (.inr ha)).1
  have hslots := h.slots
  rw [ha] at hslots
  exact {
    attempt := h.attempt
    next := h.next
    returned := fun hret => by
      have := (h.returned hret).1
      rw [ha] at this
      cases this
    client := fun q socket hq hs => by
      refine h.client q socket hq ?_
      rwa [Rank.accept, peer_fds_record_of_ne (hlt.trans hq).ne'] at hs
    serving := nofun
    peer := nofun
    slots := card_record_le.trans (Nat.succ_le_succ hslots) }

end Rank.Ok

namespace Rank.Keeps

variable {r peer : Fin w} {R : Rank w} {c : Nat}

/-- The acceptor goes on without recording. -/
theorem accept (h : R.Keeps r c peer) {a : Acceptor w} (hrec : ∀ i, R.acceptor ≠ .recording i c peer)
    (hrounds : R.acceptor.rounds r ≤ a.rounds r) : (R.accept a).Keeps r c peer := by
  rcases h with ⟨i, hi⟩ | hfd | hlt
  · exact absurd hi (hrec i)
  · exact .inr (.inl hfd)
  · exact .inr (.inr (hlt.trans_le hrounds))

theorem record_client (h : R.Keeps r c peer) (hpeer : peer < r) {p : Fin w} {socket : Socket}
    (hp : r < p) : (R.record p socket).Keeps r c peer := by
  rcases h with hi | hfd | hlt
  · exact .inl hi
  · refine .inr (.inl ?_)
    rwa [peer_fds_record_of_ne (hpeer.trans hp).ne]
  · refine .inr (.inr ?_)
    rwa [recorded_record_of_lt hp]

/-- Recording another connection of the same peer uses up a round. -/
theorem record_server (h : R.Keeps r c peer) {i c' : Nat} {peer' : Fin w}
    (ha : R.acceptor = .recording i c' peer') (hslots : (R.recorded r).card ≤ i) :
    ((R.record peer' (.server c')).accept (.accepting (i + 1))).Keeps r c peer := by
  rcases h with ⟨j, hj⟩ | hfd | hlt
  · rw [ha] at hj
    cases hj
    exact .inr (.inl peer_fds_record_self)
  · by_cases heq : peer = peer'
    · subst heq
      refine .inr (.inr ?_)
      change ((R.record peer (.server c')).recorded r).card < i + 1
      rw [recorded_record_of_isSome (by simp [hfd])]
      omega
    · refine .inr (.inl ?_)
      rwa [Rank.accept, peer_fds_record_of_ne heq]
  · rw [ha] at hlt
    exact .inr (.inr (card_record_le.trans_lt (Nat.succ_lt_succ hlt)))

end Rank.Keeps

namespace Inv

variable {s : State w} {r : Fin w} {R : Rank w} {c : Nat} {C C' : Conn w}

theorem init_inv (h : init s) : Inv s := by
  subst h
  refine ⟨fun r => ⟨by simp, ?_, by simp, by simp, nofun, by simp, ?_⟩, by simp⟩
  · rintro p hp
    cases hp
    exact Nat.lt_succ_self _
  · simp [Rank.recorded]

theorem setRank (h : Inv s) (hR : R.Ok s.conn r)
    (hkeeps : ∀ c peer, peer < r → (s.rank r).Keeps r c peer → R.Keeps r c peer) :
    Inv (s.setRank r R) := by
  have hself : (s.setRank r R).rank r = R := update_self ..
  have hother : ∀ r', r' ≠ r → (s.setRank r R).rank r' = s.rank r' := fun r' hne =>
    update_of_ne hne ..
  refine ⟨fun r' => ?_, fun c C hC => ⟨(h.conn c C hC).hello, fun id hid => ?_⟩⟩
  · by_cases heq : r' = r
    · rwa [heq, hself]
    · rw [hother r' heq]
      exact h.rank r'
  · obtain ⟨hdst, hlt, hk⟩ := (h.conn c C hC).reply id hid
    refine ⟨hdst, hlt, ?_⟩
    by_cases heq : C.dst = r
    · rw [heq] at hlt hk ⊢
      rw [hself]
      exact hkeeps c C.src hlt hk
    · rwa [hother _ heq]

theorem setConn (h : Inv s) (C' : Conn w) (hext : Extends s.conn (s.setConn c C').conn) (hC : C'.Ok s.rank c) :
    Inv (s.setConn c C') := by
  refine ⟨fun r => (h.rank r).mono hext, fun c' C hC' => ?_⟩
  by_cases heq : c' = c
  · subst heq
    obtain rfl : C' = C := by simpa [State.setConn] using hC'
    exact hC
  · refine h.conn c' C ?_
    simpa [State.setConn, heq] using hC'

theorem extends_setConn (hC : s.conn c = some C) (hsrc : C'.src = C.src) (hdst : C'.dst = C.dst)
    (hreply : ∀ id, C.reply = some id → C'.reply = some id) : Extends s.conn (s.setConn c C').conn := by
  intro c' D hD
  by_cases heq : c' = c
  · subst heq
    obtain rfl : C = D := by simpa [hC] using hD
    exact ⟨C', by simp [State.setConn], hsrc, hdst, hreply⟩
  · exact ⟨D, by simp [State.setConn, heq, hD], rfl, rfl, fun _ => id⟩

theorem extends_new (hnew : s.conn c = none) : Extends s.conn (s.setConn c C').conn := by
  intro c' D hD
  have heq : c' ≠ c := by
    rintro rfl
    simp [hnew] at hD
  exact ⟨D, by simp [State.setConn, heq, hD], rfl, rfl, fun _ => id⟩

/-- A step of the connector that records nothing. -/
theorem connect (h : Inv s) {a : Connector w}
    (hattempt : ∀ p c, a = .connected p c ∨ a = .greeted p c → r < p ∧ ∃ C, s.conn c = some C ∧ C.src = r)
    (hnext : ∀ p, a = .connecting p → r < p) (hreturned : a = .returned →
      (s.rank r).acceptor = .exited ∧ ∀ p, p ≠ r → ((s.rank r).peer_fds_ p).isSome) :
    Inv (s.setRank r ((s.rank r).connect a)) :=
  h.setRank ((h.rank r).connect hattempt hnext hreturned) fun _ _ _ hk => hk

/-- A step of the acceptor that records nothing. -/
theorem accept (h : Inv s) {a : Acceptor w} (hrun : (s.rank r).acceptor ≠ .exited)
    (hrec : ∀ i c peer, (s.rank r).acceptor ≠ .recording i c peer)
    (hserving : ∀ c, a.serving = some c → ∃ C, s.conn c = some C ∧ C.dst = r)
    (hpeer : ∀ i c peer, a = .replying i c peer ∨ a = .recording i c peer →
      peer < r ∧ ∃ C, s.conn c = some C ∧ C.src = peer)
    (hrounds : (s.rank r).acceptor.rounds r ≤ a.rounds r) :
    Inv (s.setRank r ((s.rank r).accept a)) :=
  h.setRank ((h.rank r).accept hrun hserving hpeer hrounds) fun c peer _ hk =>
    hk.accept (fun i => hrec i c peer) hrounds

theorem reply (h : Inv s) {i : Nat} {c : Nat} {C : Conn w} {peer : Fin w}
    (hacc : (s.rank r).acceptor = .replying i c peer) (hC : s.conn c = some C) :
    Inv ((s.setRank r ((s.rank r).accept (.recording i c peer))).setConn c { C with reply := some r }) := by
  obtain ⟨hlt, D, hD, hsrc⟩ := (h.rank r).peer i c peer (.inl hacc)
  obtain rfl : C = D := by simpa [hC] using hD
  obtain ⟨D, hD, hdst⟩ := (h.rank r).serving c (by simp [hacc, Acceptor.serving])
  obtain rfl : C = D := by simpa [hC] using hD
  have hrecording : Inv (s.setRank r ((s.rank r).accept (.recording i c peer))) := by
    refine h.accept (by simp [hacc]) (by simp [hacc]) ?_ ?_ (by simp [hacc, Acceptor.rounds])
    · rintro _ heq
      cases heq
      exact ⟨C, hC, hdst⟩
    · rintro _ _ _ (heq | heq)
      · cases heq
      · cases heq
        exact ⟨hlt, C, hC, hsrc⟩
  -- the answer is on the wire when the acceptor is about to record
  refine hrecording.setConn (c := c) { C with reply := some r }
    (extends_setConn hC rfl rfl fun id hid => ?_) ⟨(h.conn c C hC).hello, fun id hid => ?_⟩
  · rw [((h.conn c C hC).reply id hid).1, hdst]
  · refine ⟨(Option.some.inj hid).symm.trans hdst.symm, ?_, ?_⟩
    · change C.src < C.dst
      rwa [hsrc, hdst]
    · refine .inl ⟨i, ?_⟩
      change (update s.rank r _ C.dst).acceptor = .recording i c C.src
      rw [hdst, update_self, hsrc]
      rfl

theorem step {s' : State w} {a : Act w} (h : Inv s) (hs : Step s a s') : Inv s' := by
  cases hs with
  | @connect r p dst c hcon hnew =>
    have hlt := (h.rank r).next p hcon
    have hnewInv := h.setConn ⟨r, dst, false, none, none⟩ (extends_new hnew) ⟨nofun, nofun⟩
    refine hnewInv.connect ?_ nofun nofun
    rintro p' c' (heq | heq)
    · cases heq
      exact ⟨hlt, _, update_self .., rfl⟩
    · cases heq
  | @greet r p c C hcon hC =>
    obtain ⟨hlt, D, hD, hsrc⟩ := (h.rank r).attempt p c (.inl hcon)
    obtain rfl : C = D := by simpa [hC] using hD
    have hok := h.conn c C hC
    have hgreeted := h.setConn { C with hello := some r } (extends_setConn hC rfl rfl fun _ => id)
      ⟨fun id hid => (Option.some.inj hid).symm.trans hsrc.symm, hok.reply⟩
    refine hgreeted.connect ?_ nofun nofun
    rintro p' c' (heq | heq)
    · cases heq
    · cases heq
      exact ⟨hlt, _, update_self .., hsrc⟩
  | @close r p c hcon =>
    refine h.connect nofun ?_ nofun
    rintro _ heq
    cases heq
    exact ((h.rank r).attempt p c hcon).1
  | @agree r p c C hcon hC hgot =>
    obtain ⟨hlt, D, hD, hsrc⟩ := (h.rank r).attempt p c (.inr hcon)
    obtain rfl : C = D := by simpa [hC] using hD
    have hrecorded := (h.rank r).record_client hlt hC hsrc hgot (by simp [hcon])
    refine h.setRank (hrecorded.connect nofun ?_ nofun) fun _ _ hpeer hk => hk.record_client hpeer hlt
    rintro _ heq
    cases heq
    exact Nat.lt_succ_of_lt hlt
  | fail r hcon hp | join r hcon => exact h.connect nofun nofun nofun
  | complete r hcon hexit hall => exact h.connect nofun nofun fun _ => ⟨hexit, hall⟩
  | missing r p hcon hexit hp hnone => exact h.connect nofun nofun nofun
  | @accept r i c C hacc hi hC hdst hnew =>
    have htaken := h.setConn { C with accepted := true } (extends_setConn hC rfl rfl fun _ => id)
      ⟨(h.conn c C hC).hello, (h.conn c C hC).reply⟩
    refine htaken.accept (by simp [State.setConn, hacc]) (by simp [State.setConn, hacc]) ?_ nofun
      (by simp [State.setConn, hacc, Acceptor.rounds])
    rintro _ heq
    cases heq
    exact ⟨_, update_self .., hdst⟩
  | error r hacc hi | reject r hacc | drop r hacc | exit r hacc =>
    exact h.accept (by simp [hacc]) (by simp [hacc]) nofun nofun (by simp [hacc, Acceptor.rounds])
  | @read r i c C peer hacc hC hhello hpeer =>
    refine h.accept (by simp [hacc]) (by simp [hacc]) ?_ ?_ (by simp [hacc, Acceptor.rounds])
    · rintro _ heq
      cases heq
      exact (h.rank r).serving c (by simp [hacc, Acceptor.serving])
    · rintro _ _ _ (heq | heq)
      · cases heq
        exact ⟨hpeer, C, hC, ((h.conn c C hC).hello peer hhello).symm⟩
      · cases heq
  | reply r hacc hC => exact h.reply hacc hC
  | @record r i c peer hacc =>
    have hslots := (h.rank r).slots
    rw [hacc] at hslots
    exact h.setRank ((h.rank r).record_server hacc) fun _ _ _ hk => hk.record_server hacc hslots

theorem of_reachable (h : (mesh w).Reachable s) : Inv s :=
  h.invariant (fun _ => init_inv) fun _ _ _ hinv _ => hinv.step

end Inv

/-- **Endpoint agreement**: when the constructors of `p < r` have returned, the
    two sockets that they have recorded for each other are the ends of one
    connection from `p` to `r`. -/
theorem endpoints_agree {s : State w} (h : (mesh w).Reachable s) {p r : Fin w} (hlt : p < r)
    (hp : (s.rank p).connector = .returned) (hr : (s.rank r).connector = .returned) :
    ∃ c C, s.conn c = some C ∧ C.src = p ∧ C.dst = r ∧
      (s.rank p).peer_fds_ r = some (.client c) ∧ (s.rank r).peer_fds_ p = some (.server c) := by
  have hinv := Inv.of_reachable h
  obtain ⟨socket, hsocket⟩ := Option.isSome_iff_exists.mp (((hinv.rank p).returned hp).2 r hlt.ne')
  obtain ⟨c, C, rfl, hC, rfl, hreply⟩ := (hinv.rank p).client r socket hlt hsocket
  obtain ⟨rfl, -, hkeeps⟩ := (hinv.conn c C hC).reply r hreply
  obtain ⟨hexit, hall⟩ := (hinv.rank C.dst).returned hr
  refine ⟨c, C, hC, rfl, rfl, hsocket, ?_⟩
  rcases hkeeps with ⟨i, hi⟩ | hfd | hwasted
  · rw [hexit] at hi
    cases hi
  · exact hfd
  · -- every peer is recorded, so no round has been used up for nothing
    rw [hexit, Acceptor.rounds, Rank.card_recorded_of_all hall] at hwasted
    exact absurd hwasted (lt_irrefl _)

/-- Rank 0 gives up its first attempt and succeeds with the second. -/
theorem endpoints_agree_retry : ∃ s : State 2, (mesh 2).Reachable s ∧
    (s.rank 0).peer_fds_ 1 = some (.client 1) ∧ (s.rank 1).peer_fds_ 0 = some (.server 1) ∧
    ∃ c C, s.conn c = some C ∧ C.src = 0 ∧ C.dst = 1 ∧
      (s.rank 0).peer_fds_ 1 = some (.client c) ∧ (s.rank 1).peer_fds_ 0 = some (.server c) := by
  have h0 : (mesh 2).Reachable _ := .init rfl
  have h1 := h0.next (.connect 0 1 1 (c := 0) rfl rfl)
  have h2 := h1.next (.greet 0 rfl rfl)
  have h3 := h2.next (.close 0 (.inr rfl))
  have h4 := h3.next (.connect 0 1 1 (c := 1) rfl rfl)
  have h5 := h4.next (.greet 0 rfl rfl)
  have h6 := h5.next (.accept 1 (c := 1) rfl (by decide) rfl rfl rfl)
  have h7 := h6.next (.read 1 rfl rfl rfl (by decide))
  have h8 := h7.next (.reply 1 rfl rfl)
  have h9 := h8.next (.agree 0 rfl rfl rfl)
  have h10 := h9.next (.record 1 rfl)
  have h11 := h10.next (.exit 1 rfl)
  have h12 := h11.next (.exit 0 rfl)
  have h13 := h12.next (.join 0 rfl)
  have h14 := h13.next (.join 1 rfl)
  have h15 := h14.next (.complete 0 rfl rfl (by decide))
  have h16 := h15.next (.complete 1 rfl rfl (by decide))
  exact ⟨_, h16, rfl, rfl, endpoints_agree h16 (by decide) rfl rfl⟩

end Mccl.PeerMesh
