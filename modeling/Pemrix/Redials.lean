-- The tasks of one TCP transport: the loop that dials the bootstrap peers again
-- and again, the connections it spawned, and those that it accepted. In every
-- order of their steps a peer is dialed once at a time, none is forgotten, and
-- the table of peers holds live connections only.
import Pemrix.Dials

open Std

namespace Pemrix

structure SocketAddr where
  host : String
  port : UInt16
  deriving DecidableEq

/-! ## The tasks -/

/-- Where a connection stands. One that has `returned` from `run_connection` still has to leave
the set of the peers that are being dialed. -/
inductive TaskState where
  | connecting
  | handshake
  | running (remote_id : PeerId) (token : Nat)
  | leaving (remote_id : PeerId) (token : Nat)
  | returned
  | ended
  deriving DecidableEq

/-- The slot that the task has to clear, if it is still its own. -/
def TaskState.slot : TaskState → Option (PeerId × Nat)
  | .running remote_id token => some (remote_id, token)
  | .leaving remote_id token => some (remote_id, token)
  | _ => none

/-- A task that was dialed knows its peer; one that was accepted does not. -/
structure ConnectionTask where
  known_peer : Option PeerId
  state : TaskState
  deriving DecidableEq

/-- The retry loop takes the peers to dial in one piece, and spawns their tasks one by one. -/
inductive RetryLoop where
  | check
  | spawning (pending : List PeerId)
  | sleeping
  deriving DecidableEq

structure TcpTransport where
  local_id : PeerId
  bootstrap_peers : ExtTreeMap PeerId SocketAddr
  peers : TcpTransport.Peers
  dialing : ExtTreeSet PeerId
  retry : RetryLoop
  tasks : List ConnectionTask
  next_token : Nat

inductive TransportEvent where
  /-- The retry loop goes on to its next lock, or wakes up. -/
  | retry
  /-- The listener accepts a connection. -/
  | accept
  /-- A task goes on. The outcome of its wait is an error, or for a handshake the id that the
  other end sent. -/
  | resume (i : Nat) (outcome : Option PeerId)

namespace TcpTransport

def new (local_id : PeerId) (bootstrap : ExtTreeMap PeerId SocketAddr) : TcpTransport :=
  { local_id, bootstrap_peers := bootstrap, peers := ∅, dialing := ∅, retry := .check, tasks := [],
    next_token := 0 }

/-- The bootstrap peers that are neither connected nor being dialed. -/
def to_dial (t : TcpTransport) : List PeerId :=
  t.bootstrap_peers.keys.filter fun peer_id =>
    peer_id ≠ t.local_id ∧ peer_id ∉ t.peers ∧ peer_id ∉ t.dialing

def set_state (t : TcpTransport) (i : Nat) (task : ConnectionTask) (state : TaskState) :
    TcpTransport :=
  { t with tasks := t.tasks.set i { task with state } }

/-- The end of the socket at which the task runs. -/
def task_end (local_id remote_id : PeerId) (known_peer : Option PeerId) : End :=
  if known_peer.isSome then ⟨⟨local_id, remote_id⟩, .outbound⟩
  else ⟨⟨remote_id, local_id⟩, .inbound⟩

/-- The task goes on. -/
def resume (t : TcpTransport) (i : Nat) (outcome : Option PeerId) : TcpTransport :=
  match t.tasks[i]? with
  | none => t
  | some task =>
    match task.state with
    | .connecting => t.set_state i task (if outcome.isSome then .handshake else .returned)
    | .handshake =>
      match outcome with
      | none => t.set_state i task .returned
      | some remote_id =>
        match register t.peers task.known_peer t.local_id remote_id
            ⟨task_end t.local_id remote_id task.known_peer, t.next_token⟩ with
        | .error _ => t.set_state i task .returned
        | .ok peers =>
          { t.set_state i task (.running remote_id t.next_token) with
            peers
            next_token := t.next_token + 1 }
    | .running remote_id token => t.set_state i task (.leaving remote_id token)
    | .leaving remote_id token =>
      { t.set_state i task .returned with peers := unregister t.peers remote_id token }
    | .returned =>
      { t.set_state i task .ended with
        dialing := task.known_peer.elim t.dialing (t.dialing.erase ·) }
    | .ended => t

def step (t : TcpTransport) : TransportEvent → TcpTransport
  | .retry =>
    match t.retry with
    | .check => { t with retry := .spawning t.to_dial }
    | .spawning [] => { t with retry := .sleeping }
    | .spawning (peer_id :: pending) =>
      { t with
        dialing := t.dialing.insert peer_id
        tasks := t.tasks ++ [⟨some peer_id, .connecting⟩]
        retry := .spawning pending }
    | .sleeping => { t with retry := .check }
  | .accept => { t with tasks := t.tasks ++ [⟨none, .handshake⟩] }
  | .resume i outcome => t.resume i outcome

def run (t : TcpTransport) (events : List TransportEvent) : TcpTransport := events.foldl step t

/-- The task was spawned for the peer. -/
def Spawned (t : TcpTransport) (i : Nat) (peer_id : PeerId) : Prop :=
  t.tasks[i]?.bind (·.known_peer) = some peer_id

/-- The task was spawned for the peer and has not ended. -/
def Dials (t : TcpTransport) (i : Nat) (peer_id : PeerId) : Prop :=
  ∃ task, t.tasks[i]? = some task ∧ task.known_peer = some peer_id ∧ task.state ≠ .ended

/-- The task registered under the id, with the token, and has not cleared its slot. -/
def Holds (t : TcpTransport) (i : Nat) (remote_id : PeerId) (token : Nat) : Prop :=
  ∃ task, t.tasks[i]? = some task ∧ task.state.slot = some (remote_id, token)

/-! ## What a step does -/

variable {t : TcpTransport} {i j : Nat} {task : ConnectionTask} {peer_id remote_id : PeerId}
  {token : Nat}

theorem register_ok {peers peers' : Peers} {known_peer : Option PeerId} {local_id : PeerId}
    {conn : PeerConnection} (h : register peers known_peer local_id remote_id conn = .ok peers') :
    peers' = peers.insert remote_id conn := by
  unfold register at h
  split at h
  · cases h
  dsimp only at h
  cases hslot : peers[remote_id]? with
  | none =>
    rw [hslot] at h
    exact (Except.ok.inj h).symm
  | some existing =>
    rw [hslot] at h
    dsimp only at h
    split_ifs at h
    · exact (Except.ok.inj h).symm
    · exact (Except.ok.inj h).symm

/-- A task moves on without touching the tables, or it takes a slot, or it clears its slot, or it
ends, or nothing happens. -/
theorem resume_cases (t : TcpTransport) (i : Nat) (outcome : Option PeerId) :
    (∃ task state, t.tasks[i]? = some task ∧ task.state ≠ .ended ∧ state ≠ .ended ∧
      state.slot = task.state.slot ∧ t.resume i outcome = t.set_state i task state) ∨
    (∃ task remote_id e, t.tasks[i]? = some task ∧ task.state = .handshake ∧
      t.resume i outcome = { t.set_state i task (.running remote_id t.next_token) with
        peers := t.peers.insert remote_id ⟨e, t.next_token⟩
        next_token := t.next_token + 1 }) ∨
    (∃ task remote_id token, t.tasks[i]? = some task ∧ task.state = .leaving remote_id token ∧
      t.resume i outcome = { t.set_state i task .returned with
        peers := unregister t.peers remote_id token }) ∨
    (∃ task, t.tasks[i]? = some task ∧ task.state = .returned ∧
      t.resume i outcome = { t.set_state i task .ended with
        dialing := task.known_peer.elim t.dialing (t.dialing.erase ·) }) ∨
    t.resume i outcome = t := by
  unfold resume
  split
  · exact Or.inr (Or.inr (Or.inr (Or.inr rfl)))
  rename_i task htask
  split
  · rename_i hstate
    refine Or.inl ⟨task, _, htask, ?_, ?_, ?_, rfl⟩
    · rw [hstate]
      exact nofun
    · split
      · exact nofun
      · exact nofun
    · rw [hstate]
      split
      · rfl
      · rfl
  · rename_i hstate
    have hreturn : ∃ task' state, t.tasks[i]? = some task' ∧ task'.state ≠ .ended ∧
        state ≠ .ended ∧ state.slot = task'.state.slot ∧
        t.set_state i task .returned = t.set_state i task' state := by
      refine ⟨task, .returned, htask, ?_, nofun, ?_, rfl⟩
      · rw [hstate]
        exact nofun
      · rw [hstate]
        rfl
    split
    · exact Or.inl hreturn
    · split
      · exact Or.inl hreturn
      · rename_i remote_id _ peers hregister
        refine Or.inr (Or.inl ⟨task, remote_id,
          task_end t.local_id remote_id task.known_peer, htask, hstate, ?_⟩)
        rw [register_ok hregister]
  · rename_i remote_id token hstate
    refine Or.inl ⟨task, .leaving remote_id token, htask, ?_, nofun, ?_, rfl⟩
    · rw [hstate]
      exact nofun
    · rw [hstate]
      rfl
  · rename_i remote_id token hstate
    exact Or.inr (Or.inr (Or.inl ⟨task, remote_id, token, htask, hstate, rfl⟩))
  · rename_i hstate
    exact Or.inr (Or.inr (Or.inr (Or.inl ⟨task, htask, hstate, rfl⟩)))
  · exact Or.inr (Or.inr (Or.inr (Or.inr rfl)))

theorem getElem?_set_state (h : t.tasks[i]? = some task) (state : TaskState) (j : Nat) :
    (t.set_state i task state).tasks[j]? =
      if i = j then some { task with state } else t.tasks[j]? := by
  have hlt : i < t.tasks.length := (List.getElem?_eq_some_iff.mp h).1
  rw [set_state, List.getElem?_set, if_pos hlt]

/-- A task that moves on goes on dialing. -/
theorem dials_set_state (h : t.tasks[i]? = some task) (hlive : task.state ≠ .ended)
    {state : TaskState} (hstate : state ≠ .ended) :
    (t.set_state i task state).Dials j peer_id ↔ t.Dials j peer_id := by
  unfold Dials
  rw [getElem?_set_state h]
  by_cases hij : i = j
  · subst hij
    rw [if_pos rfl, h]
    simp [hlive, hstate]
  · rw [if_neg hij]

theorem dials_end (h : t.tasks[i]? = some task) :
    (t.set_state i task .ended).Dials j peer_id ↔ t.Dials j peer_id ∧ i ≠ j := by
  unfold Dials
  rw [getElem?_set_state h]
  by_cases hij : i = j
  · subst hij
    simp
  · rw [if_neg hij]
    simp [hij]

theorem holds_set_state (h : t.tasks[i]? = some task) (state : TaskState) :
    (t.set_state i task state).Holds j remote_id token ↔
      if i = j then state.slot = some (remote_id, token) else t.Holds j remote_id token := by
  unfold Holds
  rw [getElem?_set_state h]
  split
  · simp
  · rfl

theorem holds_iff (h : t.tasks[i]? = some task) :
    t.Holds i remote_id token ↔ task.state.slot = some (remote_id, token) := by
  unfold Holds
  rw [h]
  simp

theorem dials_snoc (new : ConnectionTask) (hnew : new.state ≠ .ended) {t' : TcpTransport}
    (ht : t'.tasks = t.tasks ++ [new]) :
    t'.Dials j peer_id ↔
      t.Dials j peer_id ∨ j = t.tasks.length ∧ new.known_peer = some peer_id := by
  unfold Dials
  rw [ht, List.getElem?_append]
  split
  · rename_i hlt
    have hne : j ≠ t.tasks.length := by omega
    simp [hne]
  · rename_i hge
    rw [List.getElem?_eq_none (Nat.le_of_not_lt hge), List.getElem?_singleton]
    by_cases hj : j = t.tasks.length
    · simp [hj, hnew]
    · rw [if_neg (by omega)]
      simp [hj]

theorem holds_snoc (new : ConnectionTask) (hnew : new.state.slot = none) {t' : TcpTransport}
    (ht : t'.tasks = t.tasks ++ [new]) :
    t'.Holds j remote_id token ↔ t.Holds j remote_id token := by
  unfold Holds
  rw [ht, List.getElem?_append]
  split
  · rfl
  · rename_i hge
    rw [List.getElem?_eq_none (Nat.le_of_not_lt hge), List.getElem?_singleton]
    split
    · simp [hnew]
    · rfl

/-! ## The invariant -/

/-- The tasks, the set of the peers that are being dialed and the table fit together. -/
structure Wired (t : TcpTransport) : Prop where
  dialing : ∀ {p}, p ∈ t.dialing ↔ ∃ i, t.Dials i p
  single : ∀ {i j p}, t.Dials i p → t.Dials j p → i = j
  known : ∀ {i p}, t.Dials i p → p ∈ t.bootstrap_peers ∧ p ≠ t.local_id
  pending : ∀ {l}, t.retry = .spawning l → l.Nodup ∧
    ∀ p ∈ l, p ∈ t.bootstrap_peers ∧ p ≠ t.local_id ∧ p ∉ t.dialing
  owner : ∀ {r conn}, t.peers[r]? = some conn → ∃ i, t.Holds i r conn.token
  fresh : ∀ {i r k}, t.Holds i r k → k < t.next_token
  unique : ∀ {i j r r' k}, t.Holds i r k → t.Holds j r' k → i = j

theorem new_wired (local_id : PeerId) (bootstrap : ExtTreeMap PeerId SocketAddr) :
    Wired (new local_id bootstrap) := by
  have hdials : ∀ i p, ¬ (new local_id bootstrap).Dials i p := by
    rintro i p ⟨task, htask, -⟩
    cases htask
  have hholds : ∀ i r k, ¬ (new local_id bootstrap).Holds i r k := by
    rintro i r k ⟨task, htask, -⟩
    cases htask
  refine ⟨?_, fun h => absurd h (hdials _ _), fun h => absurd h (hdials _ _), nofun, ?_,
    fun h => absurd h (hholds _ _ _), fun h => absurd h (hholds _ _ _)⟩
  · intro p
    refine iff_of_false ExtTreeSet.not_mem_empty ?_
    rintro ⟨i, h⟩
    exact hdials i p h
  · intro r conn h
    simp [new] at h

/-- The tables stay, and the tasks dial and hold what they did. -/
theorem Wired.of_same {t' : TcpTransport} (hw : t.Wired)
    (hdials : ∀ i p, t'.Dials i p ↔ t.Dials i p) (hholds : ∀ i r k, t'.Holds i r k ↔ t.Holds i r k)
    (hlocal : t'.local_id = t.local_id) (hboot : t'.bootstrap_peers = t.bootstrap_peers)
    (hpeers : t'.peers = t.peers) (hdialing : t'.dialing = t.dialing)
    (htoken : t'.next_token = t.next_token)
    (hpending : ∀ l, t'.retry = .spawning l → l.Nodup ∧
      ∀ p ∈ l, p ∈ t.bootstrap_peers ∧ p ≠ t.local_id ∧ p ∉ t.dialing) : t'.Wired := by
  refine ⟨?_, ?_, ?_, ?_, ?_, ?_, ?_⟩
  · intro p
    rw [hdialing]
    simp only [hdials]
    exact hw.dialing
  · intro i j p hi hj
    exact hw.single ((hdials i p).mp hi) ((hdials j p).mp hj)
  · intro i p hi
    rw [hboot, hlocal]
    exact hw.known ((hdials i p).mp hi)
  · intro l hl
    rw [hboot, hlocal, hdialing]
    exact hpending l hl
  · intro r conn hconn
    rw [hpeers] at hconn
    obtain ⟨i, hi⟩ := hw.owner hconn
    exact ⟨i, (hholds i r conn.token).mpr hi⟩
  · intro i r k hi
    rw [htoken]
    exact hw.fresh ((hholds i r k).mp hi)
  · intro i j r r' k hi hj
    exact hw.unique ((hholds i r k).mp hi) ((hholds j r' k).mp hj)

theorem mem_to_dial {p : PeerId} :
    p ∈ t.to_dial ↔ p ∈ t.bootstrap_peers ∧ p ≠ t.local_id ∧ p ∉ t.peers ∧ p ∉ t.dialing := by
  simp [to_dial]

theorem to_dial_nodup (t : TcpTransport) : t.to_dial.Nodup :=
  List.Nodup.filter _ ExtTreeMap.nodup_keys

/-- One more task, for a peer that nobody dials. -/
theorem Wired.spawn {t' : TcpTransport} {new : PeerId} {pending : List PeerId} (hw : t.Wired)
    (hretry : t.retry = .spawning (new :: pending))
    (ht : t' = { t with
      dialing := t.dialing.insert new
      tasks := t.tasks ++ [⟨some new, .connecting⟩]
      retry := .spawning pending }) : t'.Wired := by
  obtain ⟨hnodup, hpending⟩ := hw.pending hretry
  obtain ⟨hfirst, hrest⟩ := List.nodup_cons.mp hnodup
  obtain ⟨hboot, hlocal, hfree⟩ := hpending new List.mem_cons_self
  have htasks : t'.tasks = t.tasks ++ [⟨some new, .connecting⟩] := by rw [ht]
  have hdials : ∀ {i p}, t'.Dials i p ↔ t.Dials i p ∨ i = t.tasks.length ∧ some new = some p :=
    dials_snoc ⟨some new, .connecting⟩ nofun htasks
  have hholds : ∀ {i r k}, t'.Holds i r k ↔ t.Holds i r k :=
    holds_snoc ⟨some new, .connecting⟩ rfl htasks
  have hnone : ∀ i, ¬ t.Dials i new := fun i hi => hfree (hw.dialing.mpr ⟨i, hi⟩)
  have hmem : ∀ {p}, p ∈ t'.dialing ↔ new = p ∨ p ∈ t.dialing := by
    intro p
    rw [ht]
    simp
  refine ⟨?_, ?_, ?_, ?_, ?_, ?_, ?_⟩
  · intro p
    rw [hmem, hw.dialing]
    constructor
    · rintro (rfl | ⟨i, hi⟩)
      · exact ⟨t.tasks.length, hdials.mpr (Or.inr ⟨rfl, rfl⟩)⟩
      · exact ⟨i, hdials.mpr (Or.inl hi)⟩
    · rintro ⟨i, hi⟩
      rcases hdials.mp hi with hi | ⟨-, hp⟩
      · exact Or.inr ⟨i, hi⟩
      · exact Or.inl (Option.some.inj hp)
  · intro i j p hi hj
    rcases hdials.mp hi with hi | ⟨hlast, hp⟩
    · rcases hdials.mp hj with hj | ⟨-, hp⟩
      · exact hw.single hi hj
      · cases hp
        exact absurd hi (hnone i)
    · cases hp
      rcases hdials.mp hj with hj | ⟨hlast', -⟩
      · exact absurd hj (hnone j)
      · exact hlast.trans hlast'.symm
  · intro i p hi
    rw [ht]
    rcases hdials.mp hi with hi | ⟨-, hp⟩
    · exact hw.known hi
    · cases hp
      exact ⟨hboot, hlocal⟩
  · intro l hl
    rw [ht] at hl
    cases hl
    refine ⟨hrest, fun p hp => ?_⟩
    obtain ⟨hboot, hlocal, hfree⟩ := hpending p (List.mem_cons_of_mem new hp)
    rw [hmem]
    refine ⟨by rw [ht]; exact hboot, by rw [ht]; exact hlocal, ?_⟩
    rintro (rfl | hin)
    · exact hfirst hp
    · exact hfree hin
  · intro r conn hconn
    rw [ht] at hconn
    obtain ⟨i, hi⟩ := hw.owner hconn
    exact ⟨i, hholds.mpr hi⟩
  · intro i r k hi
    rw [ht]
    exact hw.fresh (hholds.mp hi)
  · intro i j r r' k hi hj
    exact hw.unique (hholds.mp hi) (hholds.mp hj)

theorem Wired.retry_step (hw : t.Wired) : (t.step .retry).Wired := by
  unfold step
  dsimp only
  split
  · refine hw.of_same (fun _ _ => Iff.rfl) (fun _ _ _ => Iff.rfl) rfl rfl rfl rfl rfl ?_
    intro l hl
    cases hl
    refine ⟨t.to_dial_nodup, fun p hp => ?_⟩
    obtain ⟨hboot, hlocal, -, hdialing⟩ := mem_to_dial.mp hp
    exact ⟨hboot, hlocal, hdialing⟩
  · exact hw.of_same (fun _ _ => Iff.rfl) (fun _ _ _ => Iff.rfl) rfl rfl rfl rfl rfl nofun
  · rename_i hretry
    exact hw.spawn hretry rfl
  · exact hw.of_same (fun _ _ => Iff.rfl) (fun _ _ _ => Iff.rfl) rfl rfl rfl rfl rfl nofun

theorem Wired.accept (hw : t.Wired) : (t.step .accept).Wired := by
  refine hw.of_same (fun i p => ?_) (fun i r k => ?_) rfl rfl rfl rfl rfl ?_
  · rw [dials_snoc ⟨none, .handshake⟩ nofun rfl]
    simp
  · exact holds_snoc ⟨none, .handshake⟩ rfl rfl
  · intro l hl
    exact hw.pending hl

/-- A task takes a slot with a new token. -/
theorem Wired.enter {t' : TcpTransport} {e : End} (hw : t.Wired) (htask : t.tasks[i]? = some task)
    (hstate : task.state = .handshake)
    (ht : t' = { t.set_state i task (.running remote_id t.next_token) with
      peers := t.peers.insert remote_id ⟨e, t.next_token⟩
      next_token := t.next_token + 1 }) : t'.Wired := by
  have hlive : task.state ≠ .ended := by
    rw [hstate]
    exact nofun
  have hdials : ∀ {j p}, t'.Dials j p ↔ t.Dials j p := by
    intro j p
    rw [ht]
    exact dials_set_state htask hlive nofun
  have hholds : ∀ {j r k}, t'.Holds j r k ↔
      if i = j then (some (remote_id, t.next_token) : Option _) = some (r, k)
      else t.Holds j r k := by
    intro j r k
    rw [ht]
    exact holds_set_state htask _
  refine ⟨?_, ?_, ?_, ?_, ?_, ?_, ?_⟩
  · intro p
    simp only [hdials]
    rw [ht]
    exact hw.dialing
  · intro i j p hi hj
    exact hw.single (hdials.mp hi) (hdials.mp hj)
  · intro i p hi
    rw [ht]
    exact hw.known (hdials.mp hi)
  · intro l hl
    rw [ht] at hl ⊢
    exact hw.pending hl
  · intro r conn hconn
    rw [ht] at hconn
    dsimp only at hconn
    rw [ExtTreeMap.getElem?_insert] at hconn
    split at hconn
    · rename_i heq
      cases hconn
      rw [← LawfulEqCmp.eq_of_compare heq]
      exact ⟨i, hholds.mpr (by rw [if_pos rfl])⟩
    · obtain ⟨j, hj⟩ := hw.owner hconn
      refine ⟨j, hholds.mpr ?_⟩
      rw [if_neg]
      · exact hj
      · rintro rfl
        rw [holds_iff htask, hstate] at hj
        cases hj
  · intro j r k hj
    rw [ht]
    have hj := hholds.mp hj
    split at hj
    · cases hj
      exact Nat.lt_succ_self _
    · exact Nat.lt_succ_of_lt (hw.fresh hj)
  · intro j j' r r' k hj hj'
    have hj := hholds.mp hj
    have hj' := hholds.mp hj'
    split at hj
    · rename_i hij
      cases hj
      split at hj'
      · rename_i hij'
        exact hij.symm.trans hij'
      · exact absurd (hw.fresh hj') (Nat.lt_irrefl _)
    · split at hj'
      · cases hj'
        exact absurd (hw.fresh hj) (Nat.lt_irrefl _)
      · exact hw.unique hj hj'

/-- A task clears its slot if it is still its own. -/
theorem Wired.leave {t' : TcpTransport} (hw : t.Wired) (htask : t.tasks[i]? = some task)
    (hstate : task.state = .leaving remote_id token)
    (ht : t' = { t.set_state i task .returned with
      peers := unregister t.peers remote_id token }) : t'.Wired := by
  have hlive : task.state ≠ .ended := by
    rw [hstate]
    exact nofun
  have hdials : ∀ {j p}, t'.Dials j p ↔ t.Dials j p := by
    intro j p
    rw [ht]
    exact dials_set_state htask hlive nofun
  have hholds : ∀ {j r k}, t'.Holds j r k ↔ i ≠ j ∧ t.Holds j r k := by
    intro j r k
    rw [ht]
    refine (holds_set_state htask _).trans ?_
    by_cases hij : i = j
    · rw [if_pos hij]
      simp [hij, TaskState.slot]
    · rw [if_neg hij]
      simp [hij]
  refine ⟨?_, ?_, ?_, ?_, ?_, ?_, ?_⟩
  · intro p
    simp only [hdials]
    rw [ht]
    exact hw.dialing
  · intro i j p hi hj
    exact hw.single (hdials.mp hi) (hdials.mp hj)
  · intro i p hi
    rw [ht]
    exact hw.known (hdials.mp hi)
  · intro l hl
    rw [ht] at hl ⊢
    exact hw.pending hl
  · intro r conn hconn
    rw [ht] at hconn
    dsimp only at hconn
    rw [Net.getElem?_unregister] at hconn
    have hbefore : t.peers[r]? = some conn := by
      split at hconn
      · exact (Option.filter_eq_some_iff.mp hconn).1
      · exact hconn
    obtain ⟨j, hj⟩ := hw.owner hbefore
    refine ⟨j, hholds.mpr ⟨?_, hj⟩⟩
    rintro rfl
    -- The slot of the task itself is cleared.
    rw [holds_iff htask, hstate] at hj
    cases hj
    rw [if_pos rfl, Option.filter_eq_some_iff] at hconn
    simp at hconn
  · intro j r k hj
    rw [ht]
    exact hw.fresh (hholds.mp hj).2
  · intro j j' r r' k hj hj'
    exact hw.unique (hholds.mp hj).2 (hholds.mp hj').2

/-- A task ends, and its peer is no longer being dialed. -/
theorem Wired.finish {t' : TcpTransport} (hw : t.Wired) (htask : t.tasks[i]? = some task)
    (hstate : task.state = .returned)
    (ht : t' = { t.set_state i task .ended with
      dialing := task.known_peer.elim t.dialing (t.dialing.erase ·) }) : t'.Wired := by
  have hdials : ∀ {j p}, t'.Dials j p ↔ t.Dials j p ∧ i ≠ j := by
    intro j p
    rw [ht]
    exact dials_end htask
  have hholds : ∀ {j r k}, t'.Holds j r k ↔ t.Holds j r k := by
    intro j r k
    rw [ht]
    refine (holds_set_state htask _).trans ?_
    by_cases hij : i = j
    · subst hij
      rw [if_pos rfl, holds_iff htask, hstate]
      simp [TaskState.slot]
    · rw [if_neg hij]
  have hours : ∀ {p}, t.Dials i p ↔ task.known_peer = some p := by
    intro p
    unfold Dials
    rw [htask]
    simp [hstate]
  have hmem : ∀ {p}, p ∈ t'.dialing ↔ p ∈ t.dialing ∧ task.known_peer ≠ some p := by
    intro p
    rw [ht]
    dsimp only
    cases task.known_peer with
    | none => simp
    | some q =>
      simp only [Option.elim_some, ExtTreeSet.mem_erase, ne_eq, Option.some.injEq,
        LawfulEqCmp.compare_eq_iff_eq]
      exact and_comm
  refine ⟨?_, ?_, ?_, ?_, ?_, ?_, ?_⟩
  · intro p
    rw [hmem, hw.dialing, ne_eq, ← hours]
    constructor
    · rintro ⟨⟨j, hj⟩, hnot⟩
      refine ⟨j, hdials.mpr ⟨hj, ?_⟩⟩
      rintro rfl
      exact hnot hj
    · rintro ⟨j, hj⟩
      obtain ⟨hj, hne⟩ := hdials.mp hj
      exact ⟨⟨j, hj⟩, fun hi => hne (hw.single hi hj)⟩
  · intro j j' p hj hj'
    exact hw.single (hdials.mp hj).1 (hdials.mp hj').1
  · intro j p hj
    rw [ht]
    exact hw.known (hdials.mp hj).1
  · intro l hl
    rw [ht] at hl
    obtain ⟨hnodup, hpending⟩ := hw.pending hl
    refine ⟨hnodup, fun p hp => ?_⟩
    obtain ⟨hboot, hlocal, hfree⟩ := hpending p hp
    rw [hmem]
    exact ⟨by rw [ht]; exact hboot, by rw [ht]; exact hlocal, fun h => hfree h.1⟩
  · intro r conn hconn
    rw [ht] at hconn
    obtain ⟨j, hj⟩ := hw.owner hconn
    exact ⟨j, hholds.mpr hj⟩
  · intro j r k hj
    rw [ht]
    exact hw.fresh (hholds.mp hj)
  · intro j j' r r' k hj hj'
    exact hw.unique (hholds.mp hj) (hholds.mp hj')

theorem Wired.resume (hw : t.Wired) (i : Nat) (outcome : Option PeerId) :
    (t.resume i outcome).Wired := by
  rcases t.resume_cases i outcome with
    ⟨task, state, htask, hlive, hstate, hslot, ht⟩ | ⟨task, remote_id, e, htask, hstate, ht⟩ |
    ⟨task, remote_id, token, htask, hstate, ht⟩ | ⟨task, htask, hstate, ht⟩ | ht
  · rw [ht]
    refine hw.of_same (fun j p => dials_set_state htask hlive hstate) (fun j r k => ?_)
      rfl rfl rfl rfl rfl fun l hl => hw.pending hl
    rw [holds_set_state htask]
    split
    · rename_i hij
      subst hij
      rw [holds_iff htask, hslot]
    · rfl
  · exact hw.enter htask hstate ht
  · exact hw.leave htask hstate ht
  · exact hw.finish htask hstate ht
  · rw [ht]
    exact hw

theorem Wired.run (hw : t.Wired) (events : List TransportEvent) : (t.run events).Wired := by
  induction events generalizing t with
  | nil => exact hw
  | cons event events ih =>
    refine ih (t := t.step event) ?_
    cases event with
    | retry => exact hw.retry_step
    | accept => exact hw.accept
    | resume i outcome => exact hw.resume i outcome

/-! ## Every order of the steps -/

theorem step_same (t : TcpTransport) (event : TransportEvent) :
    (t.step event).local_id = t.local_id ∧
      (t.step event).bootstrap_peers = t.bootstrap_peers := by
  cases event with
  | retry =>
    unfold step
    dsimp only
    split
    · exact ⟨rfl, rfl⟩
    · exact ⟨rfl, rfl⟩
    · exact ⟨rfl, rfl⟩
    · exact ⟨rfl, rfl⟩
  | accept => exact ⟨rfl, rfl⟩
  | resume i outcome =>
    rcases t.resume_cases i outcome with
      ⟨task, state, -, -, -, -, ht⟩ | ⟨task, remote_id, e, -, -, ht⟩ |
      ⟨task, remote_id, token, -, -, ht⟩ | ⟨task, -, -, ht⟩ | ht
    · rw [step, ht]
      exact ⟨rfl, rfl⟩
    · rw [step, ht]
      exact ⟨rfl, rfl⟩
    · rw [step, ht]
      exact ⟨rfl, rfl⟩
    · rw [step, ht]
      exact ⟨rfl, rfl⟩
    · rw [step, ht]
      exact ⟨rfl, rfl⟩

theorem run_same (t : TcpTransport) (events : List TransportEvent) :
    (t.run events).local_id = t.local_id ∧ (t.run events).bootstrap_peers = t.bootstrap_peers := by
  induction events generalizing t with
  | nil => exact ⟨rfl, rfl⟩
  | cons event events ih =>
    obtain ⟨hlocal, hboot⟩ := t.step_same event
    obtain ⟨hlocal', hboot'⟩ := ih (t.step event)
    exact ⟨hlocal'.trans hlocal, hboot'.trans hboot⟩

/-- A task stays in the list, for the same peer. -/
theorem Spawned.of_set_state {p : PeerId} (hs : t.Spawned j p) (htask : t.tasks[i]? = some task)
    (state : TaskState) : (t.set_state i task state).Spawned j p := by
  unfold Spawned at hs ⊢
  rw [getElem?_set_state htask]
  split
  · rename_i hij
    subst hij
    rw [htask] at hs
    exact hs
  · exact hs

theorem Spawned.snoc {p : PeerId} (hs : t.Spawned j p) (new : ConnectionTask) :
    (t.tasks ++ [new])[j]?.bind (·.known_peer) = some p := by
  have hlt : j < t.tasks.length := by
    by_contra hge
    rw [Spawned, List.getElem?_eq_none (Nat.le_of_not_lt hge)] at hs
    cases hs
  rw [List.getElem?_append_left hlt]
  exact hs

theorem Spawned.step {p : PeerId} (hs : t.Spawned j p) (event : TransportEvent) :
    (t.step event).Spawned j p := by
  cases event with
  | retry =>
    unfold TcpTransport.step
    dsimp only
    split
    · exact hs
    · exact hs
    · exact hs.snoc _
    · exact hs
  | accept => exact hs.snoc _
  | resume i outcome =>
    rcases t.resume_cases i outcome with
      ⟨task, state, htask, -, -, -, ht⟩ | ⟨task, remote_id, e, htask, -, ht⟩ |
      ⟨task, remote_id, token, htask, -, ht⟩ | ⟨task, htask, -, ht⟩ | ht
    · rw [TcpTransport.step, ht]
      exact hs.of_set_state htask _
    · rw [TcpTransport.step, ht]
      exact hs.of_set_state htask _
    · rw [TcpTransport.step, ht]
      exact hs.of_set_state htask _
    · rw [TcpTransport.step, ht]
      exact hs.of_set_state htask _
    · rw [TcpTransport.step, ht]
      exact hs

/-- The peer has a task from the `n`-th on, or the loop is about to spawn one. -/
def Coming (n : Nat) (p : PeerId) (t : TcpTransport) : Prop :=
  n ≤ t.tasks.length ∧
    ((∃ i, n ≤ i ∧ t.Spawned i p) ∨ ∃ pending, t.retry = .spawning pending ∧ p ∈ pending)

theorem length_tasks_step (t : TcpTransport) (event : TransportEvent) :
    t.tasks.length ≤ (t.step event).tasks.length := by
  cases event with
  | retry =>
    unfold step
    dsimp only
    split
    · exact Nat.le_refl _
    · exact Nat.le_refl _
    · rw [List.length_append]
      exact Nat.le_add_right _ _
    · exact Nat.le_refl _
  | accept =>
    rw [step, List.length_append]
    exact Nat.le_add_right _ _
  | resume i outcome =>
    rcases t.resume_cases i outcome with
      ⟨task, state, -, -, -, -, ht⟩ | ⟨task, remote_id, e, -, -, ht⟩ |
      ⟨task, remote_id, token, -, -, ht⟩ | ⟨task, -, -, ht⟩ | ht
    · simp [step, ht, set_state]
    · simp [step, ht, set_state]
    · simp [step, ht, set_state]
    · simp [step, ht, set_state]
    · simp [step, ht]

theorem Coming.step {n : Nat} {p : PeerId} (h : Coming n p t) (event : TransportEvent) :
    Coming n p (t.step event) := by
  obtain ⟨hn, ⟨i, hi, hs⟩ | ⟨pending, hretry, hp⟩⟩ := h
  · exact ⟨hn.trans (t.length_tasks_step event), Or.inl ⟨i, hi, hs.step event⟩⟩
  refine ⟨hn.trans (t.length_tasks_step event), ?_⟩
  cases event with
  | retry =>
    cases pending with
    | nil => cases hp
    | cons first rest =>
      rcases List.mem_cons.mp hp with rfl | hp
      · refine Or.inl ⟨t.tasks.length, hn, ?_⟩
        simp [TcpTransport.step, hretry, Spawned]
      · refine Or.inr ⟨rest, ?_, hp⟩
        simp [TcpTransport.step, hretry]
  | accept => exact Or.inr ⟨pending, hretry, hp⟩
  | resume i outcome =>
    refine Or.inr ⟨pending, ?_, hp⟩
    rw [← hretry]
    rcases t.resume_cases i outcome with
      ⟨task, state, -, -, -, -, ht⟩ | ⟨task, remote_id, e, -, -, ht⟩ |
      ⟨task, remote_id, token, -, -, ht⟩ | ⟨task, -, -, ht⟩ | ht
    · rw [TcpTransport.step, ht]
      rfl
    · rw [TcpTransport.step, ht]
      rfl
    · rw [TcpTransport.step, ht]
      rfl
    · rw [TcpTransport.step, ht]
      rfl
    · rw [TcpTransport.step, ht]

theorem Coming.run {n : Nat} {p : PeerId} (h : Coming n p t) (events : List TransportEvent) :
    Coming n p (t.run events) := by
  induction events generalizing t with
  | nil => exact h
  | cons event events ih => exact ih (h.step event)

/-- In every order of the steps of the retry loop, the dialed tasks and the accepted ones: the set
`dialing` is the peers that a live task dials, a peer is dialed by one task at a time, only
bootstrap peers other than the node itself are dialed, each entry of the table belongs to one live
task, and a round of the loop that has come to its sleep has spawned a task for each bootstrap
peer that was neither connected nor being dialed when the round began. -/
theorem retry_loop_dials_each_peer_once (local_id : PeerId)
    (bootstrap : ExtTreeMap PeerId SocketAddr) (events more : List TransportEvent) :
    let t := (new local_id bootstrap).run events
    (∀ p, p ∈ t.dialing ↔ ∃ i, t.Dials i p) ∧
    (∀ i j p, t.Dials i p → t.Dials j p → i = j) ∧
    (∀ i p, t.Dials i p → p ∈ bootstrap ∧ p ≠ local_id) ∧
    (∀ (remote_id : PeerId) (conn : PeerConnection), t.peers[remote_id]? = some conn →
      ∃! i, t.Holds i remote_id conn.token) ∧
    (t.retry = .check → ((t.step .retry).run more).retry = .sleeping →
      ∀ p ∈ bootstrap, p ≠ local_id → p ∉ t.peers → p ∉ t.dialing →
        ∃ i, t.tasks.length ≤ i ∧ ((t.step .retry).run more).Spawned i p) := by
  intro t
  have hw : t.Wired := (new_wired local_id bootstrap).run events
  obtain ⟨hlocal, hboot⟩ : t.local_id = local_id ∧ t.bootstrap_peers = bootstrap :=
    run_same (new local_id bootstrap) events
  refine ⟨fun p => hw.dialing, fun i j p => hw.single, ?_, ?_, ?_⟩
  · intro i p hi
    rw [← hlocal, ← hboot]
    exact hw.known hi
  · intro remote_id conn hconn
    obtain ⟨i, hi⟩ := hw.owner hconn
    exact ⟨i, hi, fun j hj => hw.unique hj hi⟩
  · intro hcheck hsleeping p hp hne hpeers hdialing
    have hdial : p ∈ t.to_dial := mem_to_dial.mpr
      ⟨by rw [hboot]; exact hp, by rw [hlocal]; exact hne, hpeers, hdialing⟩
    have hcoming : Coming t.tasks.length p (t.step .retry) := by
      refine ⟨t.length_tasks_step .retry, Or.inr ⟨t.to_dial, ?_, hdial⟩⟩
      simp [step, hcheck]
    obtain ⟨-, hspawned | ⟨pending, hspawning, -⟩⟩ := hcoming.run more
    · exact hspawned
    · rw [hsleeping] at hspawning
      cases hspawning

end TcpTransport

end Pemrix
