-- The poller of the shared services. It asks a validator for its height and then
-- for every block up to it, and its cursor goes on to that height whether the
-- requests were answered or not.
import Pemrix.Rpc
import Pemrix.SerdeJson

open Std

namespace Pemrix

/-! ## The loop -/

/-- How the request of the status ends. The height may be missing, or be no `u64`. -/
inductive StatusResponse where
  | send_error
  | parse_error
  | body (height : Option UInt64)

/-- How the request of a block ends. -/
inductive RawBlockResponse where
  | send_error
  | parse_error
  | block (block : Block)

/-- What the validator answers in one round: the status, and the block of each height. -/
structure PollRound where
  status : StatusResponse
  blocks : UInt64 → RawBlockResponse

/-- The cursor, the state, and the blocks that were passed to `ingest_block`. -/
structure Poller where
  last_height : UInt64
  rpc_state : RpcState
  ingested : List Block

/-- The heights after `last` up to `current`. -/
def heights (last current : UInt64) : List UInt64 :=
  (List.range' (last.toNat + 1) (current.toNat - last.toNat)).map UInt64.ofNat

namespace Poller

def start (rpc_state : RpcState) : Poller := ⟨0, rpc_state, []⟩

def current_height (p : Poller) : StatusResponse → UInt64
  | .body height => height.getD p.last_height
  | .parse_error => p.last_height
  | .send_error => p.last_height

variable [Crates]

def fetch (p : Poller) : RawBlockResponse → Poller
  | .block block =>
    { p with
      rpc_state := Services.ingest_block p.rpc_state block
      ingested := p.ingested ++ [block] }
  | .parse_error => p
  | .send_error => p

/-- One round of `poll_validator`. -/
def poll (p : Poller) (round : PollRound) : Poller :=
  let current_height := p.current_height round.status
  if current_height ≤ p.last_height then p
  else
    let p := (heights p.last_height current_height).foldl (fun p h => p.fetch (round.blocks h)) p
    { p with last_height := current_height }

def run (p : Poller) (rounds : List PollRound) : Poller := rounds.foldl poll p

end Poller

/-! ## What is asked and what is ingested -/

theorem mem_heights (last current h : UInt64) :
    h ∈ heights last current ↔ last < h ∧ h ≤ current := by
  unfold heights
  rw [List.mem_map, UInt64.lt_iff_toNat_lt, UInt64.le_iff_toNat_le]
  constructor
  · rintro ⟨n, hn, rfl⟩
    have hcurrent := current.toNat_lt
    rw [List.mem_range'_1] at hn
    rw [UInt64.toNat_ofNat']
    omega
  · rintro ⟨hlast, hcurrent⟩
    refine ⟨h.toNat, ?_, UInt64.ofNat_toNat⟩
    rw [List.mem_range'_1]
    omega

theorem heights_append {last current : UInt64} (h : last ≤ current) :
    heights 0 last ++ heights last current = heights 0 current := by
  have hle := UInt64.le_iff_toNat_le.mp h
  unfold heights
  rw [← List.map_append, UInt64.toNat_zero, Nat.sub_zero, Nat.zero_add, Nat.sub_zero,
    Nat.add_comm last.toNat, List.range'_append_1, Nat.add_sub_cancel' hle]

/-- The block of an answer. -/
def RawBlockResponse.block? : RawBlockResponse → Option Block
  | .block b => some b
  | .parse_error => none
  | .send_error => none

namespace Poller

variable [Crates]

theorem ingested_fetch (p : Poller) (response : RawBlockResponse) :
    (p.fetch response).ingested = p.ingested ++ response.block?.toList := by
  cases response with
  | send_error => exact (List.append_nil _).symm
  | parse_error => exact (List.append_nil _).symm
  | block block => rfl

theorem ingested_foldl (blocks : UInt64 → RawBlockResponse) (hs : List UInt64) (p : Poller) :
    (hs.foldl (fun p h => p.fetch (blocks h)) p).ingested =
      p.ingested ++ hs.filterMap fun h => (blocks h).block? := by
  induction hs generalizing p with
  | nil => exact (List.append_nil _).symm
  | cons h hs ih =>
    rw [List.foldl_cons, ih, ingested_fetch, List.append_assoc, List.filterMap_cons]
    cases (blocks h).block? <;> rfl

theorem run_snoc (p : Poller) (rounds : List PollRound) (round : PollRound) :
    p.run (rounds ++ [round]) = (p.run rounds).poll round := by
  unfold run
  rw [List.foldl_append]
  rfl

/-- Every height up to the cursor was ingested once, in increasing order. -/
def SkipsNone (p : Poller) : Prop := p.ingested.map (·.header.height) = heights 0 p.last_height

/-- The round asks for the block of the height. -/
def Requests (p : Poller) (round : PollRound) (h : UInt64) : Prop :=
  p.last_height < h ∧ h ≤ p.current_height round.status

/-- Every block that the round asks for comes. -/
def Answered (p : Poller) (round : PollRound) : Prop :=
  ∀ h, p.Requests round h → ∃ block, round.blocks h = .block block

/-- A round that asks for something goes to the height that it saw. -/
theorem poll_of_lt {p : Poller} {round : PollRound}
    (h : p.last_height < p.current_height round.status) :
    (p.poll round).last_height = p.current_height round.status ∧
      (p.poll round).ingested = p.ingested ++
        (heights p.last_height (p.current_height round.status)).filterMap
          fun h => (round.blocks h).block? := by
  unfold poll
  rw [if_neg (UInt64.not_le.mpr h)]
  exact ⟨rfl, ingested_foldl _ _ p⟩

theorem poll_of_le {p : Poller} {round : PollRound}
    (h : p.current_height round.status ≤ p.last_height) : p.poll round = p := by
  unfold poll
  rw [if_pos h]

omit [Crates] in
/-- Every answer that is a block has the height that was asked for, so the heights come back if
and only if all answers are blocks. -/
theorem map_height_filterMap_iff {blocks : UInt64 → RawBlockResponse}
    (hheights : ∀ h block, blocks h = .block block → block.header.height = h) (hs : List UInt64) :
    (hs.filterMap fun h => (blocks h).block?).map (·.header.height) = hs ↔
      ∀ h ∈ hs, ∃ block, blocks h = .block block := by
  have hblock : ∀ h b, (blocks h).block? = some b → blocks h = .block b := by
    intro h b hb
    rcases hresponse : blocks h with _ | _ | b'
    · rw [hresponse] at hb
      cases hb
    · rw [hresponse] at hb
      cases hb
    · rw [hresponse] at hb
      cases hb
      rfl
  constructor
  · intro heq h hmem
    rw [← heq] at hmem
    obtain ⟨b, hb, rfl⟩ := List.mem_map.mp hmem
    obtain ⟨h', -, hb'⟩ := List.mem_filterMap.mp hb
    have hresponse := hblock h' b hb'
    rw [hheights h' b hresponse]
    exact ⟨b, hresponse⟩
  · intro hall
    induction hs with
    | nil => rfl
    | cons h hs ih =>
      obtain ⟨⟨b, hb⟩, hrest⟩ := List.forall_mem_cons.mp hall
      have hsome : (blocks h).block? = some b := by
        rw [hb]
        rfl
      rw [List.filterMap_cons, hsome]
      dsimp only
      rw [List.map_cons, ih hrest, hheights h b hb]

theorem skipsNone_poll_iff {p : Poller} (hskips : p.SkipsNone) {round : PollRound}
    (hheights : ∀ h block, round.blocks h = .block block → block.header.height = h) :
    (p.poll round).SkipsNone ↔ p.Answered round := by
  rcases UInt64.lt_or_le p.last_height (p.current_height round.status) with hlt | hle
  · obtain ⟨hlast, hingested⟩ := poll_of_lt hlt
    unfold SkipsNone
    rw [hlast, hingested, List.map_append, hskips, ← heights_append (UInt64.le_of_lt hlt),
      List.append_cancel_left_eq, map_height_filterMap_iff hheights]
    unfold Answered Requests
    simp only [mem_heights]
  · rw [poll_of_le hle]
    refine iff_of_true hskips ?_
    intro h hrequests
    exact absurd (UInt64.lt_of_lt_of_le hrequests.1 hrequests.2) (UInt64.not_lt.mpr hle)

/-- In every run the poller has skipped no block after any round if and only if every block that
it asked for came. -/
theorem poller_skips_none_iff (rpc_state : RpcState) (rounds : List PollRound)
    (hheights : ∀ round ∈ rounds, ∀ h block, round.blocks h = .block block →
      block.header.height = h) :
    (∀ before, before <+: rounds → ((start rpc_state).run before).SkipsNone) ↔
      ∀ before round, before ++ [round] <+: rounds →
        ((start rpc_state).run before).Answered round := by
  have hround : ∀ before round, before ++ [round] <+: rounds → ∀ h block,
      round.blocks h = .block block → block.header.height = h :=
    fun before round hpre => hheights round (hpre.subset (by simp))
  constructor
  · intro hskips before round hpre
    have hbefore := hskips before ((List.prefix_append before [round]).trans hpre)
    have hafter := hskips (before ++ [round]) hpre
    rw [run_snoc] at hafter
    exact (skipsNone_poll_iff hbefore (hround before round hpre)).mp hafter
  · intro hanswered before hpre
    induction before using List.reverseRecOn with
    | nil => rfl
    | append_singleton before round ih =>
      have hbefore := ih ((List.prefix_append before [round]).trans hpre)
      rw [run_snoc]
      exact (skipsNone_poll_iff hbefore (hround before round hpre)).mpr
        (hanswered before round hpre)

end Poller

end Pemrix

namespace Pemrix.Concrete

/-- A block of a height. -/
def polled_block (height : UInt64) : Block :=
  ⟨⟨height, 0, default, default, default, Vector.replicate 32 0⟩, ⟨[]⟩⟩

/-- The validator is at height 2 and gives both blocks. -/
def answering : PollRound := ⟨.body (some 2), fun h => .block (polled_block h)⟩

/-- The validator is at height 1 and its block does not come. -/
def failing : PollRound := ⟨.body (some 1), fun _ => .send_error⟩

theorem answering_skips_none :
    ((Poller.start .new).run [answering]).last_height = 2 ∧
      ((Poller.start .new).run [answering]).SkipsNone := by
  have hheights : ∀ round ∈ [answering], ∀ h block, round.blocks h = .block block →
      block.header.height = h := by
    intro round hround h block hblock
    cases List.mem_singleton.mp hround
    cases hblock
    rfl
  refine ⟨by decide +kernel, (Poller.poller_skips_none_iff .new [answering] hheights).mpr ?_ _
    (List.prefix_refl _)⟩
  intro before round hpre h _
  cases List.mem_singleton.mp (hpre.subset (by simp : round ∈ before ++ [round]))
  exact ⟨polled_block h, rfl⟩

/-- The block of height 1 is skipped: the cursor is at 1, later rounds ask from 2 on. -/
theorem failing_skips_a_block :
    (∀ h block, failing.blocks h = .block block → block.header.height = h) ∧
      ((Poller.start .new).run [failing]).last_height = 1 ∧
      ((Poller.start .new).run [failing]).ingested = [] ∧
      ¬ ((Poller.start .new).run [failing]).SkipsNone :=
  ⟨fun h block hblock => (by cases hblock), by decide +kernel, rfl, by
    unfold Poller.SkipsNone
    decide +kernel⟩

end Pemrix.Concrete
