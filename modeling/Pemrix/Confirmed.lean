-- Which transactions are reported confirmed. Every front end stores what it accepts
-- where the readers look for confirmed transactions, so the answers are right only
-- as long as each accepted transaction was in a block before.
import Pemrix.FrontEnds

open Std

namespace Pemrix

variable [Crates]

/-! ## The front ends on one state -/

/-- The RPC state, the times of the faucet, and the blocks stored so far. -/
structure FrontState where
  rpc : RpcState
  cooldowns : FaucetService.Cooldowns
  stored : List Block

omit [Crates] in
def FrontState.start (allocations : ExtTreeMap Address Account) : FrontState :=
  ⟨RpcState.from_genesis allocations, ∅, []⟩

inductive FrontEvent where
  | rest (transaction : Transaction)
  | grpc (transaction : Option ProtoTransaction)
  | faucet (address amount : String) (now sent : Nat)
  | ingest (block : Block)

namespace FrontState

def step (faucet : FaucetState) (f : FrontState) : FrontEvent → FrontState
  | .rest transaction =>
    { f with rpc := (RpcServer.send_transaction_handler f.rpc transaction).2 }
  | .grpc transaction => { f with rpc := (GrpcService.send_transaction f.rpc transaction).2 }
  | .faucet address amount now sent =>
    let (_, rpc, cooldowns) :=
      FaucetService.request_handler faucet f.rpc f.cooldowns address amount now sent
    { f with rpc, cooldowns }
  | .ingest block =>
    { f with rpc := Testnet.ingest_block f.rpc block, stored := f.stored ++ [block] }

def run (faucet : FaucetState) (f : FrontState) (events : List FrontEvent) : FrontState :=
  events.foldl (step faucet) f

/-- The transaction of a submission that passes all checks. -/
def accepted (faucet : FaucetState) (f : FrontState) : FrontEvent → Option Transaction
  | .rest transaction =>
    match RpcServer.validate_transaction f.rpc transaction with
    | .ok _ => some transaction
    | .error _ => none
  | .grpc none => none
  | .grpc (some proto) => (GrpcService.proto_to_transaction proto).toOption
  | .faucet address amount now _ =>
    match Address.from_str address, U128.from_str amount with
    | .ok recipient, .ok amount =>
      if amount > faucet.max_amount then none
      else if f.cooldowns[recipient]?.any fun last =>
          now - last < faucet.cooldown_seconds.toNat * 10 ^ 9 then none
      else FaucetService.drip faucet f.rpc recipient amount
    | _, _ => none
  | .ingest _ => none

end FrontState

/-- Some stored block has a transaction with the hash. -/
def Included (stored : List Block) (hash : Hash) : Prop :=
  ∃ block ∈ stored, ∃ tx ∈ block.body.transactions, tx.hash = hash

/-- Both readers answer `confirmed` for included transactions only. -/
structure OnlyIncluded (f : FrontState) : Prop where
  rest : ∀ text r, RpcServer.transaction_handler f.rpc text = .ok r → r.status = "confirmed" →
    Included f.stored r.hash
  grpc : ∀ text r, GrpcService.get_transaction f.rpc text = .ok r → r.status = "confirmed" →
    ∃ hash : Hash, hash.to_string = r.hash ∧ Included f.stored hash

/-! ## What a step stores -/

omit [Crates] in
theorem RpcState.mem_store_transaction (s : RpcState) (hash : Hash) (tx : Transaction) (h : Hash) :
    h ∈ (s.store_transaction hash tx).transactions ↔ hash = h ∨ h ∈ s.transactions := by
  simp [RpcState.store_transaction]

/-- A submission is stored under its hash. -/
def RpcState.submitted (s : RpcState) (tx : Transaction) : RpcState :=
  (s.store_transaction tx.hash tx).submit_transaction tx

theorem validate_hash {s : RpcState} {tx : Transaction} {hash : Hash}
    (h : RpcServer.validate_transaction s tx = .ok hash) : hash = tx.hash := by
  unfold RpcServer.validate_transaction at h
  split at h
  · cases h
  dsimp only at h
  split at h
  · cases h
  split at h
  · cases h
  split at h
  · split at h
    · cases h
    split at h
    · cases h
    · exact (Except.ok.inj h).symm
  · cases h

/-- A step ingests a block, or stores the transaction that it accepts, or leaves the state. -/
theorem FrontState.step_cases (faucet : FaucetState) (f : FrontState) (event : FrontEvent) :
    (∃ block, event = .ingest block ∧ f.accepted faucet event = none ∧
      (f.step faucet event).rpc = Testnet.ingest_block f.rpc block ∧
      (f.step faucet event).stored = f.stored ++ [block]) ∨
    ((f.step faucet event).stored = f.stored ∧
      ((∃ tx, f.accepted faucet event = some tx ∧ (f.step faucet event).rpc = f.rpc.submitted tx) ∨
        (f.accepted faucet event = none ∧ (f.step faucet event).rpc = f.rpc))) := by
  cases event with
  | rest tx =>
    refine Or.inr ⟨rfl, ?_⟩
    rw [accepted, step, RpcServer.send_transaction_handler]
    rcases hvalid : RpcServer.validate_transaction f.rpc tx with e | hash
    · exact Or.inr ⟨rfl, rfl⟩
    · refine Or.inl ⟨tx, rfl, ?_⟩
      rw [validate_hash hvalid]
      rfl
  | grpc transaction =>
    refine Or.inr ⟨rfl, ?_⟩
    cases transaction with
    | none => exact Or.inr ⟨rfl, rfl⟩
    | some proto =>
      rw [accepted, step, GrpcService.send_transaction]
      rcases GrpcService.proto_to_transaction proto with e | tx
      · exact Or.inr ⟨rfl, rfl⟩
      · exact Or.inl ⟨tx, rfl, rfl⟩
  | faucet address amount now sent =>
    refine Or.inr ⟨rfl, ?_⟩
    rw [accepted, step, FaucetService.request_handler]
    rcases Address.from_str address with e | recipient
    · exact Or.inr ⟨rfl, rfl⟩
    rcases U128.from_str amount with e | amount
    · exact Or.inr ⟨rfl, rfl⟩
    dsimp only
    split
    · exact Or.inr ⟨rfl, rfl⟩
    split
    · exact Or.inr ⟨rfl, rfl⟩
    rcases FaucetService.drip faucet f.rpc recipient amount with _ | tx
    · exact Or.inr ⟨rfl, rfl⟩
    · exact Or.inl ⟨tx, rfl, rfl⟩
  | ingest block => exact Or.inl ⟨block, rfl, rfl, rfl, rfl⟩

theorem mem_foldl_store (txs : List Transaction) (s : RpcState) (hash : Hash) :
    hash ∈ (txs.foldl (fun s tx => s.store_transaction tx.hash tx) s).transactions ↔
      (∃ tx ∈ txs, tx.hash = hash) ∨ hash ∈ s.transactions := by
  induction txs generalizing s with
  | nil => simp
  | cons tx txs ih =>
    rw [List.foldl_cons, ih, RpcState.mem_store_transaction, List.exists_mem_cons_iff, ← or_assoc,
      or_comm (a := ∃ tx ∈ txs, tx.hash = hash)]

/-- A block stores its own transactions. -/
theorem mem_ingest_block (s : RpcState) (block : Block) (hash : Hash) :
    hash ∈ (Testnet.ingest_block s block).transactions ↔
      (∃ tx ∈ block.body.transactions, tx.hash = hash) ∨ hash ∈ s.transactions := by
  obtain ⟨accounts, hreplay⟩ := Testnet.foldl_ingest_frame block.body.transactions s
  unfold Testnet.ingest_block RpcState.store
  rw [hreplay, mem_foldl_store]
  exact Iff.rfl

/-! ## Every run -/

/-- The readers answer `confirmed` for exactly what is stored. -/
theorem onlyIncluded_iff (f : FrontState) :
    OnlyIncluded f ↔ ∀ hash ∈ f.rpc.transactions, Included f.stored hash := by
  constructor
  · intro h hash hmem
    obtain ⟨tx, htx⟩ : ∃ tx, f.rpc.get_transaction hash = some tx :=
      ⟨_, ExtTreeMap.getElem?_eq_some_getElem hmem⟩
    refine h.rest hash.to_string ⟨hash, "confirmed", to_value tx⟩ ?_ rfl
    unfold RpcServer.transaction_handler
    simp only [Hash.from_str_to_string, htx]
  · intro h
    have hget : ∀ (hash : Hash) tx, f.rpc.get_transaction hash = some tx → Included f.stored hash :=
      fun hash tx htx => h hash (ExtTreeMap.mem_iff_isSome_getElem?.mpr (by
        rw [RpcState.get_transaction] at htx
        rw [htx]
        rfl))
    refine ⟨?_, ?_⟩
    · intro text r hr _
      unfold RpcServer.transaction_handler at hr
      split at hr
      · cases hr
      split at hr
      · cases hr
      · rename_i hash _ _ tx htx
        cases hr
        exact hget hash tx htx
    · intro text r hr _
      unfold GrpcService.get_transaction at hr
      rcases hparse : GrpcService.parse_hash text with e | hash
      · rw [hparse] at hr
        cases hr
      rw [hparse] at hr
      rcases htx : f.rpc.get_transaction hash with _ | tx
      · simp only [bind, Except.bind, htx] at hr
        cases hr
      · simp only [bind, Except.bind, htx] at hr
        cases hr
        exact ⟨hash, rfl, hget hash tx htx⟩

theorem Included.append {stored : List Block} {hash : Hash} (h : Included stored hash)
    (blocks : List Block) : Included (stored ++ blocks) hash := by
  obtain ⟨block, hblock, htx⟩ := h
  exact ⟨block, List.mem_append_left _ hblock, htx⟩

/-- One step keeps the answers right if the transaction that it accepts was included before. -/
theorem OnlyIncluded.step {faucet : FaucetState} {f : FrontState} (h : OnlyIncluded f)
    {event : FrontEvent}
    (haccepted : ∀ tx, f.accepted faucet event = some tx → Included f.stored tx.hash) :
    OnlyIncluded (f.step faucet event) := by
  rw [onlyIncluded_iff] at h ⊢
  intro hash hmem
  rcases f.step_cases faucet event with ⟨block, -, -, hrpc, hstored⟩ | ⟨hstored, hsubmission⟩
  · rw [hrpc, mem_ingest_block] at hmem
    rw [hstored]
    rcases hmem with ⟨tx, htx, rfl⟩ | hmem
    · exact ⟨block, List.mem_append_right _ List.mem_cons_self, tx, htx, rfl⟩
    · exact (h hash hmem).append [block]
  · rw [hstored]
    rcases hsubmission with ⟨tx, htx, hrpc⟩ | ⟨-, hrpc⟩
    · rw [hrpc] at hmem
      rcases (RpcState.mem_store_transaction f.rpc tx.hash tx hash).mp hmem with rfl | hmem
      · exact haccepted tx htx
      · exact h hash hmem
    · rw [hrpc] at hmem
      exact h hash hmem

theorem FrontState.step_accepted {faucet : FaucetState} {f : FrontState} {event : FrontEvent}
    {tx : Transaction} (h : f.accepted faucet event = some tx) :
    (f.step faucet event).rpc = f.rpc.submitted tx ∧ (f.step faucet event).stored = f.stored := by
  rcases f.step_cases faucet event with ⟨block, -, hnone, -⟩ | ⟨hstored, hsubmission⟩
  · rw [hnone] at h
    cases h
  · rcases hsubmission with ⟨tx', htx', hrpc⟩ | ⟨hnone, -⟩
    · rw [htx'] at h
      cases h
      exact ⟨hrpc, hstored⟩
    · rw [hnone] at h
      cases h

/-- An accepted transaction is reported at once. -/
theorem included_of_onlyIncluded_step {faucet : FaucetState} {f : FrontState} {event : FrontEvent}
    (h : OnlyIncluded (f.step faucet event)) {tx : Transaction}
    (htx : f.accepted faucet event = some tx) : Included f.stored tx.hash := by
  obtain ⟨hrpc, hstored⟩ := FrontState.step_accepted htx
  rw [onlyIncluded_iff, hrpc, hstored] at h
  exact h tx.hash ((RpcState.mem_store_transaction f.rpc _ tx _).mpr (Or.inl rfl))

theorem FrontState.run_snoc (faucet : FaucetState) (f : FrontState) (events : List FrontEvent)
    (event : FrontEvent) :
    f.run faucet (events ++ [event]) = (f.run faucet events).step faucet event := by
  unfold run
  rw [List.foldl_append]
  rfl

/-- In every run the answers are right after every step if and only if each accepted transaction
has the hash of one in a block that was stored before. -/
theorem confirmed_only_included_iff (faucet : FaucetState)
    (allocations : ExtTreeMap Address Account) (events : List FrontEvent) :
    (∀ before, before <+: events →
      OnlyIncluded ((FrontState.start allocations).run faucet before)) ↔
    ∀ before event, before ++ [event] <+: events →
      ∀ tx, ((FrontState.start allocations).run faucet before).accepted faucet event = some tx →
        Included ((FrontState.start allocations).run faucet before).stored tx.hash := by
  constructor
  · intro h before event hpre tx htx
    have hafter := h (before ++ [event]) hpre
    rw [FrontState.run_snoc] at hafter
    exact included_of_onlyIncluded_step hafter htx
  · intro h before hpre
    induction before using List.reverseRecOn with
    | nil =>
      rw [onlyIncluded_iff]
      intro hash hmem
      exact absurd hmem ExtTreeMap.not_mem_empty
    | append_singleton before event ih =>
      have hbefore := ih ((List.prefix_append before [event]).trans hpre)
      rw [FrontState.run_snoc]
      exact hbefore.step (h before event hpre)

end Pemrix

namespace Pemrix.Concrete

/-- A faucet with the key of the payer. -/
def faucet : FaucetState where
  max_amount := 10000
  cooldown_seconds := 60
  public_key := key
  sign _ := none
  faucet_address := payer
  submitter := ⟨payer⟩

/-- A transfer that was only submitted is reported confirmed, with no block at all. -/
theorem submitted_transfer_confirmed :
    let f := (FrontState.start ((∅ : ExtTreeMap Address Account).insert payer ⟨100, 0⟩)).run faucet
      [.rest transfer]
    ¬ OnlyIncluded f ∧ f.stored = [] ∧
      RpcServer.transaction_handler f.rpc transfer.hash.to_string =
        .ok ⟨transfer.hash, "confirmed", some transfer⟩ := by
  intro f
  have haccepted :
      (FrontState.start ((∅ : ExtTreeMap Address Account).insert payer ⟨100, 0⟩)).accepted
      faucet (.rest transfer) = some transfer := by
    rw [FrontState.accepted, FrontState.start, ← funded, transfer_validates]
  have hrpc : f.rpc = funded.submitted transfer := (FrontState.step_accepted haccepted).1
  have hget : f.rpc.get_transaction transfer.hash = some transfer := by
    rw [hrpc]
    exact ExtTreeMap.getElem?_insert_self
  have hshown : RpcServer.transaction_handler f.rpc transfer.hash.to_string =
      .ok ⟨transfer.hash, "confirmed", some transfer⟩ := by
    unfold RpcServer.transaction_handler
    simp only [Hash.from_str_to_string, hget]
    rfl
  refine ⟨?_, rfl, hshown⟩
  intro h
  obtain ⟨block, hblock, -⟩ := h.rest _ _ hshown rfl
  cases hblock

end Pemrix.Concrete
