-- Staking payloads (`StakingExecutor` of `pemrix-vm`, `encode_staking_op` of the CLI): a
-- byte and an object that is tagged from inside. What is encoded decodes again, and what
-- decodes goes to the handler of its operation.
import Pemrix.Canonical
import Pemrix.Replay

open Std
open JsonForm (text tagged)
open JsonForm.Fields (first last)
open JsonForm.StructVariants (variant either)

namespace Pemrix

namespace Forms

/-- A number as a text, `u128_string`. -/
def u128_string : JsonForm U128 :=
  text U128.to_string (fun s => (U128.from_str s).toOption) fun n => by
    rw [U128.from_str_to_string]
    rfl

def staking_operation : JsonForm StakingOperation :=
  (tagged "kind" (either
    (variant "RegisterValidator" (first "consensus_pubkey" bytes (first "commission_bps" u16
      (last "self_stake" u128_string)))) (either
    (variant "Delegate" (first "validator" address (last "amount" u128_string)))
    (variant "Undelegate" (first "validator" address (last "amount" u128_string)))))).via
    (fun
      | .RegisterValidator consensus_pubkey commission_bps self_stake =>
        .inl (consensus_pubkey, commission_bps, self_stake)
      | .Delegate validator amount => .inr (.inl (validator, amount))
      | .Undelegate validator amount => .inr (.inr (validator, amount)))
    (fun
      | .inl p => some (.RegisterValidator p.1 p.2.1 p.2.2)
      | .inr (.inl p) => some (.Delegate p.1 p.2)
      | .inr (.inr p) => some (.Undelegate p.1 p.2))
    fun op => by cases op <;> rfl

example : staking_operation.to_json (.RegisterValidator [7] 500 10000) =
    .object [("kind", .string "RegisterValidator"), ("consensus_pubkey", .array [.number 7]),
      ("commission_bps", .number 500), ("self_stake", .string "10000")] := rfl

end Forms

/-- The crates, with the format of the staking payloads. -/
@[reducible] def payload_crates (blake3 : Bytes → Bytes32) (verify : Bytes → Bytes → Bytes → Bool) :
    Crates :=
  { serde_crates blake3 verify with serde_staking := JsonForm.serde Forms.staking_operation }

/-! ## The encoders -/

section Encoders

variable [Crates]

def StakingExecutor.encode (op : StakingOperation) : Bytes := [1] ++ Pemrix.encode op

/-- The CLI writes the payload by itself. -/
def Cli.encode_staking_op (op : StakingOperation) : Bytes := [1] ++ Pemrix.encode op

end Encoders

/-! ## Dispatch -/

section Dispatch

variable {B : Type} [StateBackend B] [Crates] {tx : Transaction} {op : StakingOperation}

/-- The fee is taken, and then the handler runs. -/
def handled (state : StateStore B) (transaction : Transaction) (op : StakingOperation) :
    Except VmError ExecutionResult × StateStore B :=
  let result := (do
    BlockExecutor.charge transaction
    StakingExecutor.handle transaction.sender op : Exec B VmError ExecutionResult).run ⟨state, []⟩
  (result.1, result.2.store)

theorem run_of_decode (h : StakingExecutor.decode tx.payload = .ok op) :
    (StakingExecutor.run tx : Exec B VmError ExecutionResult) =
      StakingExecutor.handle tx.sender op := by
  unfold StakingExecutor.run
  rw [h]

/-- Such a payload goes to its handler, and never to the native transfer. -/
theorem dispatch_of_decode (h : StakingExecutor.decode tx.payload = .ok op) :
    (BlockExecutor.dispatch tx : Exec B VmError ExecutionResult) =
      StakingExecutor.handle tx.sender op := by
  obtain ⟨rest, hpayload⟩ := payload_of_decode h
  unfold BlockExecutor.dispatch
  rw [hpayload]
  exact run_of_decode h

theorem execute_of_decode {s : StateStore B} (h : StakingExecutor.decode tx.payload = .ok op)
    (hcharges : s.Charges tx) : BlockExecutor.execute s tx = handled s tx op := by
  show (((BlockExecutor.run tx).run ⟨s, []⟩).1, ((BlockExecutor.run tx).run ⟨s, []⟩).2.store) =
    handled s tx op
  rw [run_of_charges hcharges, dispatch_of_decode h]
  rfl

end Dispatch

/-! ## The round trip -/

theorem decode_encode (blake3 : Bytes → Bytes32) (verify : Bytes → Bytes → Bytes → Bool)
    (op : StakingOperation) :
    letI := payload_crates blake3 verify
    StakingExecutor.decode (StakingExecutor.encode op) = .ok op := by
  let _ := payload_crates blake3 verify
  have hread : decode (encode op) = some op := Forms.staking_operation.from_slice_to_vec op
  have htext : 0 < (encode op).length := by
    rw [List.length_pos_iff]
    intro hnil
    rw [hnil] at hread
    cases hread
  have hcond : ¬ ((StakingExecutor.encode op).length < 2 ∨
      (StakingExecutor.encode op).head? ≠ some 1) := by
    unfold StakingExecutor.encode
    rw [List.length_append, List.length_singleton]
    rintro (hlen | hhead)
    · omega
    · exact hhead rfl
  have hdrop : (StakingExecutor.encode op).drop 1 = encode op := rfl
  unfold StakingExecutor.decode
  rw [if_neg hcond, hdrop, hread]

/-- Every operation is decoded from its payload, which the CLI writes in the same way, and a
charged transaction with that payload runs the handler of the operation. Whatever the format of
the payloads is, one that decodes goes to the handler of its operation and is no transfer. -/
theorem staking_payload_reaches_its_handler :
    (∀ (blake3 : Bytes → Bytes32) (verify : Bytes → Bytes → Bytes → Bool) (op : StakingOperation),
      letI := payload_crates blake3 verify
      StakingExecutor.decode (StakingExecutor.encode op) = .ok op ∧
      Cli.encode_staking_op op = StakingExecutor.encode op ∧
      ∀ {B : Type} [StateBackend B] (s : StateStore B) (tx : Transaction),
        tx.payload = StakingExecutor.encode op → s.Charges tx →
        BlockExecutor.execute s tx = handled s tx op) ∧
    ∀ [Crates] {B : Type} [StateBackend B] (s : StateStore B) (tx : Transaction)
      (op : StakingOperation), StakingExecutor.decode tx.payload = .ok op →
      tx.payload ≠ [] ∧
      (BlockExecutor.dispatch tx : Exec B VmError ExecutionResult) =
        StakingExecutor.handle tx.sender op ∧
      (StakingExecutor.run tx : Exec B VmError ExecutionResult) =
        StakingExecutor.handle tx.sender op ∧
      (StakingExecutor.handle tx.sender op : Exec B VmError ExecutionResult) =
        (match op with
        | .RegisterValidator consensus_pubkey commission_bps self_stake =>
          StakingExecutor.register tx.sender consensus_pubkey commission_bps self_stake
        | .Delegate validator amount => StakingExecutor.delegate tx.sender validator amount
        | .Undelegate validator amount => StakingExecutor.undelegate tx.sender validator amount) ∧
      (s.Charges tx → BlockExecutor.execute s tx = handled s tx op) ∧
      (¬ s.Charges tx → (BlockExecutor.execute s tx).2 = s) := by
  refine ⟨?_, ?_⟩
  · intro blake3 verify op
    let _ := payload_crates blake3 verify
    refine ⟨decode_encode blake3 verify op, rfl, ?_⟩
    intro B _ s tx hpayload hcharges
    refine execute_of_decode ?_ hcharges
    rw [hpayload]
    exact decode_encode blake3 verify op
  · intro _ B _ s tx op hdecode
    obtain ⟨rest, hpayload⟩ := payload_of_decode hdecode
    refine ⟨by rw [hpayload]; exact List.cons_ne_nil 1 rest, dispatch_of_decode hdecode,
      run_of_decode hdecode, ?_, execute_of_decode hdecode, execute_of_not_charges⟩
    cases op with
    | RegisterValidator consensus_pubkey commission_bps self_stake => rfl
    | Delegate validator amount => rfl
    | Undelegate validator amount => rfl

/-- A delegation of the largest amount. It is charged, refused by its handler and not a transfer. -/
theorem delegation_reaches_its_handler :
    letI := payload_crates Blake3.hash fun _ _ _ => true
    let op := StakingOperation.Delegate (Concrete.addr 9) U128.MAX
    let tx := { Concrete.transfer with payload := Cli.encode_staking_op op }
    let s : StateStore InMemoryBackend := ⟨⟨Concrete.paying, ∅⟩⟩
    s.Charges tx ∧ StakingExecutor.decode tx.payload = .ok op ∧
      BlockExecutor.execute s tx = handled s tx op ∧
      (BlockExecutor.execute s tx).1 = .error .InvalidContract := by
  let _ := payload_crates Blake3.hash fun _ _ _ => true
  intro op tx s
  obtain ⟨hdecode, hcli, hexecute⟩ :=
    staking_payload_reaches_its_handler.1 Blake3.hash (fun _ _ _ => true) op
  have hcharges : s.Charges tx := by decide +kernel
  refine ⟨hcharges, hdecode, hexecute s tx hcli hcharges, ?_⟩
  decide +kernel

end Pemrix
