-- Peers that dial each other at the same time. Each end of a socket registers on its
-- own, replaces what the tie rule lets it replace, and leaves the table on its exit
-- only if the slot is still its own. In every order the socket of the greater id wins.
import Pemrix.Tcp

open Std

namespace Pemrix

/-- The derived `Ord` of `PeerId`: the bytes, from the first on. -/
instance : Ord PeerId := ⟨compareOn PeerId.bytes⟩

instance : TransOrd PeerId := inferInstanceAs (TransCmp (compareOn PeerId.bytes))

instance : LawfulEqOrd PeerId where
  eq_of_compare {a b} h := by
    have hb : a.bytes = b.bytes := LawfulEqOrd.eq_of_compare h
    cases a
    cases b
    cases hb
    rfl

namespace TcpTransport

/-! ## Sockets and connections -/

/-- The socket that one peer dialed to another. -/
structure Socket where
  dialer : PeerId
  acceptor : PeerId
  deriving DecidableEq

def Socket.reverse (socket : Socket) : Socket := ⟨socket.acceptor, socket.dialer⟩

inductive Side where
  | outbound
  | inbound
  deriving DecidableEq

/-- One end of a socket, with the handler that runs there. -/
structure End where
  socket : Socket
  side : Side
  deriving DecidableEq

namespace End

def local_id (e : End) : PeerId :=
  match e.side with
  | .outbound => e.socket.dialer
  | .inbound => e.socket.acceptor

def remote_id (e : End) : PeerId :=
  match e.side with
  | .outbound => e.socket.acceptor
  | .inbound => e.socket.dialer

/-- Who the handler was told to expect. -/
def known_peer (e : End) : Option PeerId :=
  match e.side with
  | .outbound => some e.socket.acceptor
  | .inbound => none

def other (e : End) : End :=
  match e.side with
  | .outbound => ⟨e.socket, .inbound⟩
  | .inbound => ⟨e.socket, .outbound⟩

end End

/-- A connection slot: the channel to the outbound task of an end, and the token of its owner. -/
structure PeerConnection where
  tx : End
  token : Nat
  deriving DecidableEq

abbrev Peers := ExtTreeMap PeerId PeerConnection

/-- What `run_connection` does between the handshake and the loop. The check and the insertion
are under one lock; a connection that is replaced loses the sender of its channel. -/
def register (peers : Peers) (known_peer : Option PeerId) (local_id remote_id : PeerId)
    (conn : PeerConnection) : Except String Peers :=
  if known_peer.any (· ≠ remote_id) then .error "peer id mismatch"
  else
    let is_outbound := known_peer.isSome
    let wins_tie :=
      if is_outbound then compare local_id.bytes remote_id.bytes = .gt
      else compare remote_id.bytes local_id.bytes = .gt
    match peers[remote_id]? with
    | some _ =>
      if ¬ wins_tie then .error "duplicate connection closed"
      else .ok (peers.insert remote_id conn)
    | none => .ok (peers.insert remote_id conn)

/-- What `run_connection` does last, under the lock. -/
def unregister (peers : Peers) (remote_id : PeerId) (our_token : Nat) : Peers :=
  match peers[remote_id]? with
  | some conn => if conn.token = our_token then peers.erase remote_id else peers
  | none => peers

/-! ## All the peers together -/

/-- Where the handler of an end stands. One that is leaving has stopped its outbound task and
has not yet looked at its slot. -/
inductive Handler where
  | handshake
  | running (token : Nat)
  | leaving (token : Nat)
  | closed
  deriving DecidableEq

/-- What the handler remembers as `our_token`. -/
def Handler.our_token : Handler → Option Nat
  | .handshake => none
  | .running token => some token
  | .leaving token => some token
  | .closed => none

structure Net where
  peers : PeerId → Peers
  handlers : End → Handler
  next_token : Nat

def Net.new : Net := ⟨fun _ => ∅, fun _ => .handshake, 0⟩

namespace Net

def slot (s : Net) (e : End) : Option PeerConnection := (s.peers e.local_id)[e.remote_id]?

/-- An end sends no more: its outbound task was stopped, or its channel has no sender because the
slot was given to another connection. -/
def write_half_closed (s : Net) (e : End) : Bool :=
  match s.handlers e with
  | .handshake => false
  | .running token => (s.slot e).all (·.token ≠ token)
  | .leaving _ => true
  | .closed => true

/-- The handshake is over and the end registers. -/
def complete (s : Net) (e : End) : Option Net :=
  match s.handlers e with
  | .handshake =>
    match register (s.peers e.local_id) e.known_peer e.local_id e.remote_id ⟨e, s.next_token⟩ with
    | .error _ => some { s with handlers := Function.update s.handlers e .closed }
    | .ok peers =>
      some
        { peers := Function.update s.peers e.local_id peers
          handlers := Function.update s.handlers e (.running s.next_token)
          next_token := s.next_token + 1 }
  | _ => none

/-- The stream has ended: `read_messages` returns and the outbound task is aborted. -/
def stop (s : Net) (e : End) : Option Net :=
  match s.handlers e with
  | .running token =>
    if s.write_half_closed e.other then
      some { s with handlers := Function.update s.handlers e (.leaving token) }
    else none
  | _ => none

/-- The handler leaves, and its slot is removed if it is still its own. -/
def exit (s : Net) (e : End) : Option Net :=
  match s.handlers e with
  | .leaving token =>
    some
      { s with
        peers := Function.update s.peers e.local_id
          (unregister (s.peers e.local_id) e.remote_id token)
        handlers := Function.update s.handlers e .closed }
  | _ => none

end Net

inductive DialEvent where
  | complete (e : End)
  | stop (e : End)
  | exit (e : End)

section Runs

variable (dials : Finset Socket)

/-- One event at an end of a socket that was dialed. -/
def dial_step (s : Net) : DialEvent → Option Net
  | .complete e => if e.socket ∈ dials then s.complete e else none
  | .stop e => if e.socket ∈ dials then s.stop e else none
  | .exit e => if e.socket ∈ dials then s.exit e else none

def dial_run (s : Net) : List DialEvent → Option Net
  | [] => some s
  | event :: events => (dial_step dials s event).bind fun s => dial_run s events

/-- Every end has registered or was rejected, and no handler has to leave. -/
def Settled (s : Net) : Prop :=
  ∀ e : End, e.socket ∈ dials → s.handlers e ≠ .handshake ∧ s.stop e = none ∧ s.exit e = none

end Runs

/-! ## What a step does -/

/-- The ends have one slot: the same key in the same table. -/
def End.SameSlot (e e' : End) : Prop := e.local_id = e'.local_id ∧ e.remote_id = e'.remote_id

/-- The socket was dialed by the greater id. -/
def Socket.WinsTie (socket : Socket) : Prop :=
  compare socket.dialer.bytes socket.acceptor.bytes = .gt

/-- Two ends of one slot are the same, or they belong to sockets of opposite directions. -/
theorem End.SameSlot.eq_or_reverse {e e' : End} (h : e.SameSlot e') :
    e = e' ∨ e.socket = e'.socket.reverse := by
  obtain ⟨⟨d, a⟩, side⟩ := e
  obtain ⟨⟨d', a'⟩, side'⟩ := e'
  obtain ⟨hlocal, hremote⟩ := h
  cases side with
  | outbound =>
    cases side' with
    | outbound =>
      cases hlocal
      cases hremote
      exact Or.inl rfl
    | inbound =>
      cases hlocal
      cases hremote
      exact Or.inr rfl
  | inbound =>
    cases side' with
    | outbound =>
      cases hlocal
      cases hremote
      exact Or.inr rfl
    | inbound =>
      cases hlocal
      cases hremote
      exact Or.inl rfl

theorem Socket.WinsTie.not_reverse {socket : Socket} (h : socket.WinsTie) :
    ¬ socket.reverse.WinsTie := by
  intro hrev
  have hlt : compare socket.dialer.bytes socket.acceptor.bytes = .lt :=
    OrientedCmp.gt_iff_lt.mp hrev
  rw [Socket.WinsTie, hlt] at h
  cases h

namespace Net

/-- The end takes its slot with a new token. -/
def enter (s : Net) (e : End) : Net where
  peers := Function.update s.peers e.local_id
    ((s.peers e.local_id).insert e.remote_id ⟨e, s.next_token⟩)
  handlers := Function.update s.handlers e (.running s.next_token)
  next_token := s.next_token + 1

/-- The outbound task of the end is stopped. -/
def halt (s : Net) (e : End) (token : Nat) : Net :=
  { s with handlers := Function.update s.handlers e (.leaving token) }

/-- The handler of the end leaves. -/
def leave (s : Net) (e : End) (token : Nat) : Net :=
  { s with
    peers := Function.update s.peers e.local_id
      (unregister (s.peers e.local_id) e.remote_id token)
    handlers := Function.update s.handlers e .closed }

/-- The end is rejected. -/
def reject (s : Net) (e : End) : Net := { s with handlers := Function.update s.handlers e .closed }

variable {s s' : Net} {e : End}

/-- The tie rule is the same at both ends. -/
theorem register_cases (s : Net) (e : End) :
    ((s.slot e).isSome ∧ ¬ e.socket.WinsTie ∧
      register (s.peers e.local_id) e.known_peer e.local_id e.remote_id ⟨e, s.next_token⟩ =
        .error "duplicate connection closed") ∨
    (((s.slot e).isSome → e.socket.WinsTie) ∧
      register (s.peers e.local_id) e.known_peer e.local_id e.remote_id ⟨e, s.next_token⟩ =
        .ok ((s.peers e.local_id).insert e.remote_id ⟨e, s.next_token⟩)) := by
  have hknown : ¬ (e.known_peer.any (· ≠ e.remote_id)) := by
    obtain ⟨socket, side⟩ := e
    cases side <;> simp [End.known_peer, End.remote_id]
  have hwins : (if e.known_peer.isSome then
      compare e.local_id.bytes e.remote_id.bytes = .gt
      else compare e.remote_id.bytes e.local_id.bytes = .gt) ↔ e.socket.WinsTie := by
    obtain ⟨socket, side⟩ := e
    cases side <;> exact Iff.rfl
  unfold register
  rw [if_neg hknown]
  rcases hslot : s.slot e with _ | conn
  · refine Or.inr ⟨fun h => (by cases h), ?_⟩
    unfold slot at hslot
    rw [hslot]
  · unfold slot at hslot
    rw [hslot]
    by_cases hw : e.socket.WinsTie
    · exact Or.inr ⟨fun _ => hw, if_neg (not_not_intro (hwins.mpr hw))⟩
    · exact Or.inl ⟨rfl, hw, if_pos fun h => hw (hwins.mp h)⟩

theorem complete_cases (h : s.complete e = some s') :
    s.handlers e = .handshake ∧
      (((s.slot e).isSome ∧ ¬ e.socket.WinsTie ∧ s' = s.reject e) ∨
        (((s.slot e).isSome → e.socket.WinsTie) ∧ s' = s.enter e)) := by
  unfold complete at h
  split at h
  · rename_i hhandshake
    refine ⟨hhandshake, ?_⟩
    rcases s.register_cases e with ⟨hslot, hwins, hregister⟩ | ⟨hwins, hregister⟩
    · rw [hregister] at h
      exact Or.inl ⟨hslot, hwins, (Option.some.inj h).symm⟩
    · rw [hregister] at h
      exact Or.inr ⟨hwins, (Option.some.inj h).symm⟩
  · cases h

theorem stop_cases (h : s.stop e = some s') :
    ∃ token, s.handlers e = .running token ∧ s.write_half_closed e.other = true ∧
      s' = s.halt e token := by
  unfold stop at h
  split at h
  · rename_i token hrunning
    split at h
    · rename_i hclosed
      exact ⟨token, hrunning, hclosed, (Option.some.inj h).symm⟩
    · cases h
  · cases h

theorem exit_cases (h : s.exit e = some s') :
    ∃ token, s.handlers e = .leaving token ∧ s' = s.leave e token := by
  unfold exit at h
  split at h
  · rename_i token hleaving
    exact ⟨token, hleaving, (Option.some.inj h).symm⟩
  · cases h

theorem slot_congr (s : Net) {e e' : End} (h : e.SameSlot e') : s.slot e = s.slot e' := by
  unfold slot
  rw [h.1, h.2]

/-- A table is changed at one key. -/
theorem slot_update (s s' : Net) (e : End) {peers : Peers}
    (hpeers : s'.peers = Function.update s.peers e.local_id peers)
    (hkey : ∀ id, id ≠ e.remote_id → peers[id]? = (s.peers e.local_id)[id]?) (e' : End) :
    (e'.SameSlot e ∧ s'.slot e' = peers[e.remote_id]?) ∨
      (¬ e'.SameSlot e ∧ s'.slot e' = s.slot e') := by
  unfold slot
  rw [hpeers]
  by_cases hlocal : e'.local_id = e.local_id
  · by_cases hremote : e'.remote_id = e.remote_id
    · refine Or.inl ⟨⟨hlocal, hremote⟩, ?_⟩
      rw [hlocal, hremote, Function.update_self]
    · refine Or.inr ⟨fun h => hremote h.2, ?_⟩
      rw [hlocal, Function.update_self, hkey _ hremote]
  · refine Or.inr ⟨fun h => hlocal h.1, ?_⟩
    rw [Function.update_of_ne hlocal]

theorem slot_enter (s : Net) (e e' : End) :
    (e'.SameSlot e ∧ (s.enter e).slot e' = some ⟨e, s.next_token⟩) ∨
      (¬ e'.SameSlot e ∧ (s.enter e).slot e' = s.slot e') := by
  have hslot := slot_update s (s.enter e) e rfl (fun id hid => by
    simp [ExtTreeMap.getElem?_insert, Ne.symm hid]) e'
  rwa [ExtTreeMap.getElem?_insert_self] at hslot

theorem getElem?_unregister (peers : Peers) (remote_id : PeerId) (token : Nat) (id : PeerId) :
    (unregister peers remote_id token)[id]? =
      if id = remote_id then peers[id]?.filter (·.token ≠ token) else peers[id]? := by
  unfold unregister
  split
  · rename_i conn hconn
    by_cases hid : id = remote_id
    · subst hid
      rw [if_pos rfl, hconn]
      by_cases htoken : conn.token = token
      · rw [if_pos htoken, ExtTreeMap.getElem?_erase_self]
        simp [Option.filter, htoken]
      · rw [if_neg htoken, hconn]
        simp [Option.filter, htoken]
    · rw [if_neg hid]
      split
      · simp [ExtTreeMap.getElem?_erase, Ne.symm hid]
      · rfl
  · rename_i hnone
    split
    · rename_i hid
      subst hid
      rw [hnone]
      rfl
    · rfl

/-- The slot is cleared if the token there is the one of the handler. -/
theorem slot_leave (s : Net) (e : End) (token : Nat) (e' : End) :
    (e'.SameSlot e ∧ (s.leave e token).slot e' = (s.slot e').filter (·.token ≠ token)) ∨
      (¬ e'.SameSlot e ∧ (s.leave e token).slot e' = s.slot e') := by
  rcases slot_update s (s.leave e token) e rfl (fun id hid => by
    rw [getElem?_unregister, if_neg hid]) e' with ⟨hsame, hslot⟩ | hother
  · refine Or.inl ⟨hsame, ?_⟩
    rw [hslot, getElem?_unregister, if_pos rfl, s.slot_congr hsame]
    rfl
  · exact Or.inr hother

end Net

/-! ## The invariant -/

section Invariant

variable (dials : Finset Socket)

/-- The only socket of its pair, or the one of the greater id. -/
def Favoured (socket : Socket) : Prop := socket.reverse ∉ dials ∨ socket.WinsTie

structure Tidy (s : Net) : Prop where
  owner : ∀ e conn, s.slot e = some conn →
    conn.tx.SameSlot e ∧ (s.handlers conn.tx).our_token = some conn.token
  dialed : ∀ e, s.handlers e ≠ .handshake → e.socket ∈ dials
  fresh : ∀ e token, (s.handlers e).our_token = some token → token < s.next_token
  unique : ∀ e e' token, (s.handlers e).our_token = some token →
    (s.handlers e').our_token = some token → e = e'
  kept : ∀ e, Favoured dials e.socket → s.handlers e = .handshake ∨
    ∃ token, s.handlers e = .running token ∧ s.slot e = some ⟨e, token⟩

theorem tidy_new : Tidy dials Net.new where
  owner e conn h := by
    simp [Net.new, Net.slot] at h
  dialed e h := absurd rfl h
  fresh e token h := nomatch h
  unique e e' token h := nomatch h
  kept e _ := Or.inl rfl

variable {dials} {s s' : Net} {e : End}

/-- What is in the slot of an end that has not registered belongs to the socket of the other
direction. -/
theorem Tidy.reverse_dialed (h : Tidy dials s) (hhandshake : s.handlers e = .handshake)
    (hslot : (s.slot e).isSome) : e.socket.reverse ∈ dials := by
  obtain ⟨conn, hconn⟩ := Option.isSome_iff_exists.mp hslot
  obtain ⟨hsame, hown⟩ := h.owner e conn hconn
  have hregistered : s.handlers conn.tx ≠ .handshake := by
    intro hnot
    rw [hnot] at hown
    cases hown
  rcases hsame.eq_or_reverse with heq | hrev
  · rw [heq] at hregistered
    exact absurd hhandshake hregistered
  · rw [← hrev]
    exact h.dialed conn.tx hregistered

/-- A slot with the token of a handler is its own. -/
theorem Tidy.owner_eq (h : Tidy dials s) {token : Nat}
    (hhandler : (s.handlers e).our_token = some token) {e' : End} {conn : PeerConnection}
    (hslot : s.slot e' = some conn) (htoken : conn.token = token) : conn.tx = e := by
  obtain ⟨-, hown⟩ := h.owner e' conn hslot
  rw [htoken] at hown
  exact h.unique conn.tx e token hown hhandler

/-- The handler of an end that is not favoured moves on, and no slot is lost but its own. -/
theorem Tidy.retire (h : Tidy dials s) (handler : Handler) (hdialed : e.socket ∈ dials)
    (hlosing : ¬ Favoured dials e.socket)
    (hhandlers : s'.handlers = Function.update s.handlers e handler)
    (hsame : ∀ token, handler.our_token = some token → (s.handlers e).our_token = some token)
    (htokens : s'.next_token = s.next_token)
    (hslots : ∀ e' conn, s'.slot e' = some conn ↔
      s.slot e' = some conn ∧ (conn.tx = e → handler.our_token = some conn.token)) :
    Tidy dials s' := by
  have hself : s'.handlers e = handler := by
    rw [hhandlers, Function.update_self]
  have hothers : ∀ e', e' ≠ e → s'.handlers e' = s.handlers e' := by
    intro e' he
    rw [hhandlers, Function.update_of_ne he]
  have hbefore : ∀ e' token, (s'.handlers e').our_token = some token →
      (s.handlers e').our_token = some token := by
    intro e' token h'
    by_cases he : e' = e
    · rw [he, hself] at h'
      rw [he]
      exact hsame token h'
    · rw [hothers e' he] at h'
      exact h'
  refine ⟨?_, ?_, ?_, ?_, ?_⟩
  · intro e' conn hconn
    obtain ⟨hslot, hretired⟩ := (hslots e' conn).mp hconn
    obtain ⟨hsame, hown⟩ := h.owner e' conn hslot
    refine ⟨hsame, ?_⟩
    by_cases he : conn.tx = e
    · rw [he, hself]
      exact hretired he
    · rw [hothers _ he]
      exact hown
  · intro e' h'
    by_cases he : e' = e
    · rw [he]
      exact hdialed
    · rw [hothers e' he] at h'
      exact h.dialed e' h'
  · intro e' token h'
    rw [htokens]
    exact h.fresh e' token (hbefore e' token h')
  · intro e1 e2 token h1 h2
    exact h.unique e1 e2 token (hbefore e1 token h1) (hbefore e2 token h2)
  · intro e' hfavoured
    have he : e' ≠ e := by
      rintro rfl
      exact hlosing hfavoured
    rw [hothers e' he]
    refine (h.kept e' hfavoured).imp_right ?_
    rintro ⟨token, hrunning, hslot⟩
    exact ⟨token, hrunning, (hslots e' _).mpr ⟨hslot, fun heq => absurd heq he⟩⟩

theorem Tidy.reject (h : Tidy dials s) (hdialed : e.socket ∈ dials)
    (hhandshake : s.handlers e = .handshake) (hslot : (s.slot e).isSome)
    (hwins : ¬ e.socket.WinsTie) : Tidy dials (s.reject e) := by
  have hlosing : ¬ Favoured dials e.socket := by
    rintro (hnot | hwon)
    · exact hnot (h.reverse_dialed hhandshake hslot)
    · exact hwins hwon
  refine h.retire .closed hdialed hlosing rfl nofun rfl ?_
  intro e' conn
  refine ⟨fun hconn => ⟨hconn, ?_⟩, And.left⟩
  rintro rfl
  have hown := (h.owner e' conn hconn).2
  rw [hhandshake] at hown
  cases hown

/-- A favoured end does not lose its slot to a new owner. -/
theorem Tidy.enter (h : Tidy dials s) (hdialed : e.socket ∈ dials)
    (hhandshake : s.handlers e = .handshake) (hwins : (s.slot e).isSome → e.socket.WinsTie) :
    Tidy dials (s.enter e) := by
  have hself : (s.enter e).handlers e = .running s.next_token := by
    simp [Net.enter]
  have hothers : ∀ e', e' ≠ e → (s.enter e).handlers e' = s.handlers e' := by
    intro e' he
    simp [Net.enter, he]
  have hnew : ∀ e', ((s.enter e).handlers e').our_token = some s.next_token → e' = e := by
    intro e' h'
    by_contra he
    rw [hothers e' he] at h'
    exact Nat.lt_irrefl _ (h.fresh e' _ h')
  refine ⟨?_, ?_, ?_, ?_, ?_⟩
  · intro e' conn hconn
    rcases s.slot_enter e e' with ⟨hsame, hslot⟩ | ⟨-, hslot⟩
    · rw [hslot] at hconn
      cases hconn
      refine ⟨⟨hsame.1.symm, hsame.2.symm⟩, ?_⟩
      rw [hself]
      rfl
    · rw [hslot] at hconn
      obtain ⟨hsame, hown⟩ := h.owner e' conn hconn
      refine ⟨hsame, ?_⟩
      rw [hothers, hown]
      intro he
      rw [he, hhandshake] at hown
      cases hown
  · intro e' h'
    by_cases he : e' = e
    · rw [he]
      exact hdialed
    · rw [hothers e' he] at h'
      exact h.dialed e' h'
  · intro e' token h'
    by_cases he : e' = e
    · rw [he, hself] at h'
      cases h'
      exact Nat.lt_succ_self _
    · rw [hothers e' he] at h'
      exact Nat.lt_succ_of_lt (h.fresh e' token h')
  · intro e1 e2 token h1 h2
    by_cases he1 : e1 = e
    · rw [he1, hself] at h1
      cases h1
      rw [he1, hnew e2 h2]
    · by_cases he2 : e2 = e
      · rw [he2, hself] at h2
        cases h2
        exact absurd (hnew e1 h1) he1
      · rw [hothers e1 he1] at h1
        rw [hothers e2 he2] at h2
        exact h.unique e1 e2 token h1 h2
  · intro e' hfavoured
    by_cases he : e' = e
    · subst he
      refine Or.inr ⟨s.next_token, hself, ?_⟩
      rcases s.slot_enter e' e' with ⟨-, hslot⟩ | ⟨hnot, -⟩
      · exact hslot
      · exact absurd ⟨rfl, rfl⟩ hnot
    · rw [hothers e' he]
      refine (h.kept e' hfavoured).imp_right ?_
      rintro ⟨token, hrunning, hown⟩
      refine ⟨token, hrunning, ?_⟩
      rcases s.slot_enter e e' with ⟨hsame, -⟩ | ⟨-, hslot⟩
      · -- The slot was the favoured end's, so the new end wins the tie; it is of the other
        -- direction.
        rw [s.slot_congr hsame] at hown
        have hwon := hwins (by rw [hown]; rfl)
        have hrev := hsame.eq_or_reverse.resolve_left he
        rcases hfavoured with hnot | hwins'
        · rw [hrev] at hnot
          exact absurd hdialed hnot
        · rw [hrev] at hwins'
          exact absurd hwins' hwon.not_reverse
      · rw [hslot]
        exact hown

theorem Tidy.write_half_open (h : Tidy dials s) (hfavoured : Favoured dials e.socket) :
    s.write_half_closed e = false := by
  unfold Net.write_half_closed
  rcases h.kept e hfavoured with hhandshake | ⟨token, hrunning, hslot⟩
  · rw [hhandshake]
  · rw [hrunning, hslot]
    simp

theorem End.other_socket (e : End) : e.other.socket = e.socket := by
  obtain ⟨socket, side⟩ := e
  cases side <;> rfl

/-- The stream of a favoured socket does not end. -/
theorem Tidy.halt (h : Tidy dials s) {token : Nat} (hrunning : s.handlers e = .running token)
    (hclosed : s.write_half_closed e.other = true) : Tidy dials (s.halt e token) := by
  have hlosing : ¬ Favoured dials e.socket := by
    intro hfavoured
    rw [← e.other_socket] at hfavoured
    rw [h.write_half_open hfavoured] at hclosed
    cases hclosed
  have hdialed : e.socket ∈ dials := h.dialed e (by rw [hrunning]; exact nofun)
  refine h.retire (.leaving token) hdialed hlosing rfl ?_ rfl ?_
  · intro token' htoken
    rw [hrunning]
    exact htoken
  · intro e' conn
    refine ⟨fun hconn => ⟨hconn, ?_⟩, And.left⟩
    rintro rfl
    have hown := (h.owner e' conn hconn).2
    rw [hrunning] at hown
    exact hown

theorem Tidy.leave (h : Tidy dials s) {token : Nat} (hleaving : s.handlers e = .leaving token) :
    Tidy dials (s.leave e token) := by
  have hours : (s.handlers e).our_token = some token := by
    rw [hleaving]
    rfl
  have hlosing : ¬ Favoured dials e.socket := by
    intro hfavoured
    rcases h.kept e hfavoured with hhandshake | ⟨_, hrunning, -⟩
    · rw [hhandshake] at hleaving
      cases hleaving
    · rw [hrunning] at hleaving
      cases hleaving
  have hdialed : e.socket ∈ dials := h.dialed e (by rw [hleaving]; exact nofun)
  refine h.retire .closed hdialed hlosing rfl nofun rfl ?_
  intro e' conn
  rcases s.slot_leave e token e' with ⟨-, hslot⟩ | ⟨hnot, hslot⟩
  · -- In the slot of the handler its own token decides, and no other connection has it.
    rw [hslot, Option.filter_eq_some_iff, decide_eq_true_eq]
    refine and_congr_right fun hconn => ⟨?_, ?_⟩
    · intro htoken he
      have hown := (h.owner e' conn hconn).2
      rw [he, hours] at hown
      exact absurd (Option.some.inj hown).symm htoken
    · intro hother htoken
      cases hother (h.owner_eq hours hconn htoken)
  · rw [hslot]
    refine ⟨fun hconn => ⟨hconn, ?_⟩, And.left⟩
    rintro rfl
    obtain ⟨hsame, -⟩ := h.owner e' conn hconn
    exact absurd ⟨hsame.1.symm, hsame.2.symm⟩ hnot

theorem Tidy.step {event : DialEvent} (h : Tidy dials s)
    (hstep : dial_step dials s event = some s') : Tidy dials s' := by
  cases event with
  | complete e =>
    rw [dial_step] at hstep
    split at hstep
    · rename_i hdialed
      obtain ⟨hhandshake, ⟨hslot, hwins, rfl⟩ | ⟨hwins, rfl⟩⟩ := Net.complete_cases hstep
      · exact h.reject hdialed hhandshake hslot hwins
      · exact h.enter hdialed hhandshake hwins
    · cases hstep
  | stop e =>
    rw [dial_step] at hstep
    split at hstep
    · obtain ⟨token, hrunning, hclosed, rfl⟩ := Net.stop_cases hstep
      exact h.halt hrunning hclosed
    · cases hstep
  | exit e =>
    rw [dial_step] at hstep
    split at hstep
    · obtain ⟨token, hleaving, rfl⟩ := Net.exit_cases hstep
      exact h.leave hleaving
    · cases hstep

theorem Tidy.run {events : List DialEvent} (h : Tidy dials s)
    (hrun : dial_run dials s events = some s') : Tidy dials s' := by
  induction events generalizing s with
  | nil =>
    cases hrun
    exact h
  | cons event events ih =>
    obtain ⟨s1, hstep, hrest⟩ := Option.bind_eq_some_iff.mp hrun
    exact ih (h.step hstep) hrest

/-! ## The settled state -/

/-- Both tables hold the socket. -/
def Net.Holds (s : Net) (socket : Socket) : Prop :=
  (∃ token, (s.peers socket.dialer)[socket.acceptor]? = some ⟨⟨socket, .outbound⟩, token⟩) ∧
    ∃ token, (s.peers socket.acceptor)[socket.dialer]? = some ⟨⟨socket, .inbound⟩, token⟩

/-- Both handlers of the socket are gone. -/
def Net.Closed (s : Net) (socket : Socket) : Prop := ∀ side, s.handlers ⟨socket, side⟩ = .closed

theorem Tidy.slot_of_settled (h : Tidy dials s) (hsettled : Settled dials s)
    (hdialed : e.socket ∈ dials) (hfavoured : Favoured dials e.socket) :
    ∃ token, s.slot e = some ⟨e, token⟩ := by
  rcases h.kept e hfavoured with hhandshake | ⟨token, -, hslot⟩
  · exact absurd hhandshake (hsettled e hdialed).1
  · exact ⟨token, hslot⟩

theorem Tidy.holds_of_settled (h : Tidy dials s) (hsettled : Settled dials s) {socket : Socket}
    (hdialed : socket ∈ dials) (hfavoured : Favoured dials socket) : s.Holds socket :=
  ⟨h.slot_of_settled hsettled (e := ⟨socket, .outbound⟩) hdialed hfavoured,
    h.slot_of_settled hsettled (e := ⟨socket, .inbound⟩) hdialed hfavoured⟩

/-- An end whose slot belongs to another connection sends no more. -/
theorem Tidy.write_half_closed_of_slot (h : Tidy dials s) (hhandshake : s.handlers e ≠ .handshake)
    {conn : PeerConnection} (hslot : s.slot e = some conn) (hne : conn.tx ≠ e) :
    s.write_half_closed e = true := by
  unfold Net.write_half_closed
  split
  · rename_i hhandler
    exact absurd hhandler hhandshake
  · rename_i token hrunning
    rw [hslot, Option.all_some, decide_eq_true_eq]
    exact fun htoken => hne (h.owner_eq (by rw [hrunning]; rfl) hslot htoken)
  · rfl
  · rfl

theorem Tidy.reverse_closed_of_settled (h : Tidy dials s) (hsettled : Settled dials s)
    {socket : Socket} (hdialed : socket ∈ dials) (hreverse : socket.reverse ∈ dials)
    (hwins : socket.WinsTie) : s.Closed socket.reverse := by
  have hne : socket ≠ socket.reverse := by
    intro heq
    have hnot := hwins.not_reverse
    rw [← heq] at hnot
    exact hnot hwins
  obtain ⟨⟨t, houtbound⟩, ⟨t', hinbound⟩⟩ := h.holds_of_settled hsettled hdialed (Or.inr hwins)
  -- The inbound end of the loser has the slot of the outbound end of the winner, and the other
  -- way around.
  have hsilent : ∀ side, s.write_half_closed ⟨socket.reverse, side⟩ = true := by
    intro side
    have hhandshake := (hsettled ⟨socket.reverse, side⟩ hreverse).1
    cases side with
    | outbound =>
      exact h.write_half_closed_of_slot hhandshake hinbound fun he => hne (congrArg End.socket he)
    | inbound =>
      exact h.write_half_closed_of_slot hhandshake houtbound fun he => hne (congrArg End.socket he)
  intro side
  obtain ⟨hhandshake, hstop, hexit⟩ := hsettled ⟨socket.reverse, side⟩ hreverse
  rcases hhandler : s.handlers ⟨socket.reverse, side⟩ with _ | token | token | _
  · exact absurd hhandler hhandshake
  · have hother : s.write_half_closed (End.other ⟨socket.reverse, side⟩) = true := by
      cases side with
      | outbound => exact hsilent .inbound
      | inbound => exact hsilent .outbound
    simp [Net.stop, hhandler, hother] at hstop
  · simp [Net.exit, hhandler] at hexit
  · rfl

/-- Whatever the order of the events: once all have happened, both peers of a pair that dialed
each other hold the socket of the greater id and the other one is closed, both peers of a single
socket hold it, a rejected handler has left every table as it was, and no exit takes the slot of
another connection. -/
theorem dials_settle (dials : Finset Socket) (events : List DialEvent) (s : Net)
    (hrun : dial_run dials Net.new events = some s) :
    (Settled dials s → ∀ p q : PeerId, ⟨p, q⟩ ∈ dials →
      (⟨q, p⟩ ∈ dials → compare p.bytes q.bytes = .gt → s.Holds ⟨p, q⟩ ∧ s.Closed ⟨q, p⟩) ∧
      (⟨q, p⟩ ∉ dials → s.Holds ⟨p, q⟩)) ∧
    (∀ e s', dial_step dials s (.complete e) = some s' → s'.handlers e = .closed →
      s'.peers = s.peers) ∧
    ∀ e s', dial_step dials s (.exit e) = some s' → ∀ (p q : PeerId) (conn : PeerConnection),
      (s.peers p)[q]? = some conn → (s'.peers p)[q]? ≠ some conn → conn.tx = e := by
  have htidy := (tidy_new dials).run hrun
  refine ⟨?_, ?_, ?_⟩
  · intro hsettled p q hdialed
    refine ⟨?_, ?_⟩
    · intro hreverse hgreater
      exact ⟨htidy.holds_of_settled hsettled hdialed (Or.inr hgreater),
        htidy.reverse_closed_of_settled hsettled hdialed hreverse hgreater⟩
    · intro hsingle
      exact htidy.holds_of_settled hsettled hdialed (Or.inl hsingle)
  · intro e s' hstep hclosed
    rw [dial_step] at hstep
    split at hstep
    · obtain ⟨-, ⟨-, -, rfl⟩ | ⟨-, rfl⟩⟩ := Net.complete_cases hstep
      · rfl
      · simp [Net.enter] at hclosed
    · cases hstep
  · intro e s' hstep p q conn hbefore hafter
    have hslot' : s.slot ⟨⟨p, q⟩, .outbound⟩ = some conn := hbefore
    rw [dial_step] at hstep
    split at hstep
    · obtain ⟨token, hleaving, rfl⟩ := Net.exit_cases hstep
      have hours : (s.handlers e).our_token = some token := by
        rw [hleaving]
        rfl
      rcases s.slot_leave e token ⟨⟨p, q⟩, .outbound⟩ with ⟨-, hslot⟩ | ⟨-, hslot⟩
      · by_contra hne
        refine hafter (hslot.trans ?_)
        rw [Option.filter_eq_some_iff, decide_eq_true_eq]
        exact ⟨hslot', fun htoken => hne (htidy.owner_eq hours hslot' htoken)⟩
      · exact absurd (hslot.trans hslot') hafter
    · cases hstep

end Invariant

/-! ## Two peers that dial each other -/

def lesser : PeerId := ⟨Vector.replicate 32 1⟩

def greater : PeerId := ⟨Vector.replicate 32 2⟩

def both_dial : Finset Socket := {⟨greater, lesser⟩, ⟨lesser, greater⟩}

/-- The socket of the lesser id is first at both ends, and both ends lose it. -/
def replaced_at_both_ends : List DialEvent :=
  [.complete ⟨⟨lesser, greater⟩, .outbound⟩, .complete ⟨⟨lesser, greater⟩, .inbound⟩,
    .complete ⟨⟨greater, lesser⟩, .inbound⟩, .complete ⟨⟨greater, lesser⟩, .outbound⟩,
    .stop ⟨⟨lesser, greater⟩, .inbound⟩, .stop ⟨⟨lesser, greater⟩, .outbound⟩,
    .exit ⟨⟨lesser, greater⟩, .outbound⟩, .exit ⟨⟨lesser, greater⟩, .inbound⟩]

theorem both_dial_settle :
    ∃ s, dial_run both_dial Net.new replaced_at_both_ends = some s ∧ Settled both_dial s ∧
      s.Holds ⟨greater, lesser⟩ ∧ s.Closed ⟨lesser, greater⟩ := by
  have hsome : (dial_run both_dial Net.new replaced_at_both_ends).isSome := by decide +kernel
  have hends : ∀ socket ∈ both_dial, ∀ side ∈ [Side.outbound, .inbound],
      (dial_run both_dial Net.new replaced_at_both_ends).all fun s =>
        s.handlers ⟨socket, side⟩ ≠ .handshake &&
          ((s.stop ⟨socket, side⟩).isNone && (s.exit ⟨socket, side⟩).isNone) := by
    decide +kernel
  obtain ⟨s, hs⟩ := Option.isSome_iff_exists.mp hsome
  have hsettled : Settled both_dial s := by
    rintro ⟨socket, side⟩ hdialed
    have hend := hends socket hdialed side (by cases side <;> decide)
    rw [hs, Option.all_some, Bool.and_eq_true, Bool.and_eq_true, decide_eq_true_eq,
      Option.isNone_iff_eq_none, Option.isNone_iff_eq_none] at hend
    exact hend
  obtain ⟨hpairs, -⟩ := dials_settle both_dial replaced_at_both_ends s hs
  have hpair := hpairs hsettled greater lesser (by decide +kernel)
  exact ⟨s, hs, hsettled, hpair.1 (by decide +kernel) (by decide +kernel)⟩

end TcpTransport

end Pemrix
