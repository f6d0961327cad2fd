-- The requests of the faucet side by side (`pemrix-faucet/src/service.rs`). Each handler is cut
-- where it waits: it checks under the lock of the cooldowns, reads the nonce and signs, submits,
-- and records the drip under the lock again. Between the cuts other handlers go on, blocks are
-- ingested and time passes.
import Pemrix.FrontEnds

open Std

namespace Pemrix

/-! ## The model -/

/-- How far a request has come. -/
inductive FaucetHandler where
  | checked (recipient : Address) (amount : U128)
  | signed (recipient : Address) (tx : Transaction)
  | submitted (recipient : Address) (tx : Transaction) (hash : Hash)
  | sent (recipient : Address) (tx : Transaction) (hash : Hash) (recorded : Nat)
  | refused (answer : Except StatusCode (StatusCode × FaucetResponse))
  deriving DecidableEq

namespace FaucetHandler

/-- The answer to the request, once there is one. -/
def answer : FaucetHandler → Option (Except StatusCode (StatusCode × FaucetResponse))
  | .sent _ _ hash _ => some (.ok (.OK, ⟨true, hash.to_string, "tokens sent"⟩))
  | .refused answer => some answer
  | _ => none

/-- The recipient of a request between its check and its recording. -/
def in_flight : FaucetHandler → Option Address
  | .checked recipient _ | .signed recipient _ | .submitted recipient _ _ => some recipient
  | .sent _ _ _ _ | .refused _ => none

/-- The request has gone through its checks and reads the nonce next. -/
def reads_nonce : FaucetHandler → Bool
  | .checked _ _ => true
  | _ => false

/-- The transaction that was signed for the request. -/
def drip : FaucetHandler → Option Transaction
  | .signed _ tx | .submitted _ tx _ | .sent _ tx _ _ => some tx
  | .checked _ _ | .refused _ => none

/-- The transaction of a request that was answered with success. -/
def delivered : FaucetHandler → Option Transaction
  | .sent _ tx _ _ => some tx
  | _ => none

/-- The recipient of a request that was answered with success, and when it was recorded. -/
def record : FaucetHandler → Option (Address × Nat)
  | .sent recipient _ _ recorded => some (recipient, recorded)
  | _ => none

theorem drip_of_delivered {h : FaucetHandler} {tx : Transaction} (hd : h.delivered = some tx) :
    h.drip = some tx := by
  cases h with
  | sent recipient tx' hash recorded => exact hd
  | checked recipient amount => cases hd
  | signed recipient tx' => cases hd
  | submitted recipient tx' hash => cases hd
  | refused answer => cases hd

end FaucetHandler

/-- The RPC state and the cooldowns behind the faucet, the clock in nanoseconds, and all
requests so far. -/
structure FaucetSystem where
  rpc : RpcState
  cooldowns : FaucetService.Cooldowns
  now : Nat
  handlers : List FaucetHandler

inductive FaucetAction where
  /-- A request comes in and goes through its checks. -/
  | request (address amount : String)
  /-- The handler goes on to its next wait. -/
  | resume (i : Nat)
  | tick (nanoseconds : Nat)
  /-- One turn of the loop of `ingest_block`, in the services or in the testnet. -/
  | services_ingest (tx : Transaction)
  | testnet_ingest (tx : Transaction)
  /-- The end of `ingest_block`. -/
  | store (block : Block)

namespace FaucetSystem

section Lists

variable {α : Type} {l : List α} {i j : Nat} {a b : α}

theorem getElem?_set_cases (h : (l.set i a)[j]? = some b) :
    i = j ∧ b = a ∨ i ≠ j ∧ l[j]? = some b := by
  rw [List.getElem?_set] at h
  split at h
  · rename_i hij
    split at h
    · exact .inl ⟨hij, (Option.some.inj h).symm⟩
    · cases h
  · rename_i hij
    exact .inr ⟨hij, h⟩

theorem getElem?_snoc_cases (h : (l ++ [a])[j]? = some b) :
    j = l.length ∧ b = a ∨ l[j]? = some b := by
  rw [List.getElem?_append] at h
  split at h
  · exact .inr h
  · rename_i hge
    rw [List.getElem?_singleton] at h
    split at h
    · exact .inl ⟨by omega, (Option.some.inj h).symm⟩
    · cases h

/-- What the elements of a list have, read off the list of it. -/
theorem getElem?_bind_of_map_eq {β : Type} {f : α → Option β} {values : List (Option β)}
    (h : l.map f = values) (i : Nat) : l[i]?.bind f = values[i]?.join := by
  rw [← h, List.getElem?_map]
  cases l[i]? with
  | none => rfl
  | some a => rfl

end Lists

def start (rpc : RpcState) : FaucetSystem := ⟨rpc, ∅, 0, []⟩

/-- The first part of `request_handler`, up to the end of the first lock. -/
def check (faucet : FaucetState) (cooldowns : FaucetService.Cooldowns) (now : Nat)
    (address amount : String) : FaucetHandler :=
  match Address.from_str address with
  | .error _ => .refused (.error .BAD_REQUEST)
  | .ok recipient =>
    match U128.from_str amount with
    | .error _ => .refused (.error .BAD_REQUEST)
    | .ok amount =>
      if amount > faucet.max_amount then
        .refused (.ok (.BAD_REQUEST, ⟨false, "", "amount exceeds maximum"⟩))
      else if cooldowns[recipient]?.any fun last =>
          now - last < faucet.cooldown_seconds.toNat * 10 ^ 9 then
        .refused (.ok (.TOO_MANY_REQUESTS, ⟨false, "", "address is on cooldown"⟩))
      else .checked recipient amount

variable [Crates]

/-- The nonce is read and the transfer signed. -/
def sign (faucet : FaucetState) (rpc : RpcState) (recipient : Address) (amount : U128) :
    FaucetHandler :=
  match FaucetService.drip faucet rpc recipient amount with
  | none => .refused (.error .INTERNAL_SERVER_ERROR)
  | some tx => .signed recipient tx

/-- The next part of handler `i`. -/
def resume (faucet : FaucetState) (w : FaucetSystem) (i : Nat) : FaucetSystem :=
  match w.handlers[i]? with
  | some (.checked recipient amount) =>
    { w with handlers := w.handlers.set i (sign faucet w.rpc recipient amount) }
  | some (.signed recipient tx) =>
    let (hash, rpc) := LocalSubmitter.submit w.rpc tx
    { w with rpc, handlers := w.handlers.set i (.submitted recipient tx hash) }
  | some (.submitted recipient tx hash) =>
    { w with
      cooldowns := w.cooldowns.insert recipient w.now
      handlers := w.handlers.set i (.sent recipient tx hash w.now) }
  | _ => w

def step (faucet : FaucetState) (w : FaucetSystem) : FaucetAction → FaucetSystem
  | .request address amount =>
    { w with handlers := w.handlers ++ [check faucet w.cooldowns w.now address amount] }
  | .resume i => w.resume faucet i
  | .tick nanoseconds => { w with now := w.now + nanoseconds }
  | .services_ingest tx => { w with rpc := Services.ingest_transaction w.rpc tx }
  | .testnet_ingest tx => { w with rpc := Testnet.ingest_transaction w.rpc tx }
  | .store block => { w with rpc := w.rpc.store block }

def run (faucet : FaucetState) (w : FaucetSystem) (actions : List FaucetAction) : FaucetSystem :=
  actions.foldl (step faucet) w

/-- Every action of a run meets a condition on the state before it. -/
def RunMeets (faucet : FaucetState) (P : FaucetSystem → FaucetAction → Prop) (w : FaucetSystem) :
    List FaucetAction → Prop
  | [] => True
  | action :: later => P w action ∧ RunMeets faucet P (w.step faucet action) later

instance decidableRunMeets (faucet : FaucetState) (P : FaucetSystem → FaucetAction → Prop)
    [∀ w action, Decidable (P w action)] (w : FaucetSystem) :
    (actions : List FaucetAction) → Decidable (RunMeets faucet P w actions)
  | [] => isTrue trivial
  | action :: later =>
    @instDecidableAnd _ _ (inferInstance : Decidable (P w action))
      (decidableRunMeets faucet P (w.step faucet action) later)

/-- What holds at first and is kept by every action that meets the condition, holds after every
part of a run that meets it. -/
theorem run_invariant {faucet : FaucetState} {P : FaucetSystem → FaucetAction → Prop}
    {I : FaucetSystem → Prop} (hstep : ∀ w action, I w → P w action → I (w.step faucet action))
    {w : FaucetSystem} (hw : I w) {actions : List FaucetAction} (hrun : RunMeets faucet P w actions)
    {before : List FaucetAction} (hbefore : before <+: actions) : I (w.run faucet before) := by
  induction actions generalizing w before with
  | nil =>
    rw [List.prefix_nil.mp hbefore]
    exact hw
  | cons action later ih =>
    cases before with
    | nil => exact hw
    | cons first before =>
      obtain ⟨rfl, hrest⟩ := List.cons_prefix_cons.mp hbefore
      exact ih (hstep w first hw hrun.1) hrun.2 hrest

/-! ## One action -/

omit [Crates] in
/-- A request is refused by its checks, or it goes on a cooldown after the last recording. -/
theorem check_cases (faucet : FaucetState) (cooldowns : FaucetService.Cooldowns) (now : Nat)
    (address amount : String) :
    (∃ answer, check faucet cooldowns now address amount = .refused answer) ∨
    ∃ recipient units, check faucet cooldowns now address amount = .checked recipient units ∧
      ∀ last, cooldowns[recipient]? = some last →
        faucet.cooldown_seconds.toNat * 10 ^ 9 ≤ now - last := by
  unfold check
  split
  · exact .inl ⟨_, rfl⟩
  split
  · exact .inl ⟨_, rfl⟩
  split
  · exact .inl ⟨_, rfl⟩
  split
  · exact .inl ⟨_, rfl⟩
  · rename_i hcooldown
    refine .inr ⟨_, _, rfl, ?_⟩
    intro last hlast
    rw [hlast, Option.any_some, decide_eq_true_eq, Nat.not_lt] at hcooldown
    exact hcooldown

/-- What is signed is a transfer at the nonce that the submitter gives. -/
theorem sign_cases (faucet : FaucetState) (rpc : RpcState) (recipient : Address) (amount : U128) :
    (∃ tx, sign faucet rpc recipient amount = .signed recipient tx ∧
      tx.nonce = faucet.submitter.nonce rpc) ∨
    sign faucet rpc recipient amount = .refused (.error .INTERNAL_SERVER_ERROR) := by
  unfold sign FaucetService.drip
  dsimp only
  rcases faucet.sign _ with _ | signature
  · exact .inr rfl
  · exact .inl ⟨_, rfl, rfl⟩

/-- A handler goes on in one of three ways, or it is waiting for nothing. -/
theorem resume_cases (faucet : FaucetState) (w : FaucetSystem) (i : Nat) :
    (∃ recipient amount, w.handlers[i]? = some (.checked recipient amount) ∧
      w.resume faucet i =
        { w with handlers := w.handlers.set i (sign faucet w.rpc recipient amount) }) ∨
    (∃ recipient tx, w.handlers[i]? = some (.signed recipient tx) ∧
      w.resume faucet i =
        { w with
          rpc := (LocalSubmitter.submit w.rpc tx).2
          handlers := w.handlers.set i (.submitted recipient tx tx.hash) }) ∨
    (∃ recipient tx hash, w.handlers[i]? = some (.submitted recipient tx hash) ∧
      w.resume faucet i =
        { w with
          cooldowns := w.cooldowns.insert recipient w.now
          handlers := w.handlers.set i (.sent recipient tx hash w.now) }) ∨
    w.resume faucet i = w := by
  unfold resume
  rcases hget : w.handlers[i]? with _ | h
  · exact .inr (.inr (.inr rfl))
  cases h with
  | checked recipient amount => exact .inl ⟨recipient, amount, rfl, rfl⟩
  | signed recipient tx => exact .inr (.inl ⟨recipient, tx, rfl, rfl⟩)
  | submitted recipient tx hash => exact .inr (.inr (.inl ⟨recipient, tx, hash, rfl, rfl⟩))
  | sent recipient tx hash recorded => exact .inr (.inr (.inr rfl))
  | refused answer => exact .inr (.inr (.inr rfl))

/-- The other handlers wait, and no time passes. -/
theorem resume_waits (faucet : FaucetState) (w : FaucetSystem) (i : Nat) :
    (w.resume faucet i).now = w.now ∧
      ∀ j, i ≠ j → (w.resume faucet i).handlers[j]? = w.handlers[j]? := by
  rcases w.resume_cases faucet i with
    ⟨recipient, amount, -, hresume⟩ | ⟨recipient, tx, -, hresume⟩ |
    ⟨recipient, tx, hash, -, hresume⟩ | hresume
  · rw [hresume]
    exact ⟨rfl, fun j hij => List.getElem?_set_ne hij⟩
  · rw [hresume]
    exact ⟨rfl, fun j hij => List.getElem?_set_ne hij⟩
  · rw [hresume]
    exact ⟨rfl, fun j hij => List.getElem?_set_ne hij⟩
  · rw [hresume]
    exact ⟨rfl, fun j _ => rfl⟩

section Resumed

variable (faucet : FaucetState) {w : FaucetSystem} {i : Nat} {recipient : Address}
  {tx : Transaction}

theorem resume_checked {amount : U128} (h : w.handlers[i]? = some (.checked recipient amount)) :
    (w.resume faucet i).handlers[i]? = some (sign faucet w.rpc recipient amount) := by
  unfold resume
  rw [h]
  exact List.getElem?_set_self (List.getElem?_eq_some_iff.mp h).1

theorem resume_signed (h : w.handlers[i]? = some (.signed recipient tx)) :
    (w.resume faucet i).handlers[i]? = some (.submitted recipient tx tx.hash) := by
  unfold resume
  rw [h]
  exact List.getElem?_set_self (List.getElem?_eq_some_iff.mp h).1

theorem resume_submitted {hash : Hash} (h : w.handlers[i]? = some (.submitted recipient tx hash)) :
    (w.resume faucet i).handlers[i]? = some (.sent recipient tx hash w.now) := by
  unfold resume
  rw [h]
  exact List.getElem?_set_self (List.getElem?_eq_some_iff.mp h).1

theorem resume_sent {hash : Hash} {recorded : Nat}
    (h : w.handlers[i]? = some (.sent recipient tx hash recorded)) : w.resume faucet i = w := by
  unfold resume
  rw [h]

/-- A drip that is signed is delivered when its handler goes on. -/
theorem delivered_of_resumed (h : w.handlers[i]?.bind FaucetHandler.drip = some tx) :
    ((w.resume faucet i).resume faucet i).handlers[i]?.bind FaucetHandler.delivered = some tx := by
  obtain ⟨g, hget, hdrip⟩ := Option.bind_eq_some_iff.mp h
  cases g with
  | checked recipient amount => cases hdrip
  | signed recipient tx' =>
    cases hdrip
    rw [resume_submitted faucet (resume_signed faucet hget)]
    rfl
  | submitted recipient tx' hash =>
    cases hdrip
    have hsent := resume_submitted faucet hget
    rw [resume_sent faucet hsent, hsent]
    rfl
  | sent recipient tx' hash recorded =>
    cases hdrip
    rw [resume_sent faucet hget, resume_sent faucet hget, hget]
    rfl
  | refused answer => cases hdrip

/-- A request on its way is recorded when its handler goes on, if the key can sign. -/
theorem recorded_of_resumed (hsigns : ∀ message, faucet.sign message ≠ none)
    (h : w.handlers[i]?.bind FaucetHandler.in_flight = some recipient) :
    (((w.resume faucet i).resume faucet i).resume faucet i).handlers[i]?.bind
      FaucetHandler.record = some (recipient, w.now) := by
  have hnow : ∀ v : FaucetSystem, (v.resume faucet i).now = v.now :=
    fun v => (v.resume_waits faucet i).1
  obtain ⟨g, hget, hin⟩ := Option.bind_eq_some_iff.mp h
  cases g with
  | checked recipient' amount =>
    cases hin
    obtain ⟨tx, hsign⟩ : ∃ tx, sign faucet w.rpc recipient amount = .signed recipient tx := by
      unfold sign FaucetService.drip
      dsimp only
      split
      · rename_i hnone
        exact absurd (Option.map_eq_none_iff.mp hnone) (hsigns _)
      · exact ⟨_, rfl⟩
    have hsigned := resume_checked faucet hget
    rw [hsign] at hsigned
    rw [resume_submitted faucet (resume_signed faucet hsigned), hnow, hnow]
    rfl
  | signed recipient' tx =>
    cases hin
    have hsent := resume_submitted faucet (resume_signed faucet hget)
    rw [resume_sent faucet hsent, hsent, hnow]
    rfl
  | submitted recipient' tx hash =>
    cases hin
    have hsent := resume_submitted faucet hget
    rw [resume_sent faucet hsent, resume_sent faucet hsent, hsent]
    rfl
  | sent recipient' tx hash recorded => cases hin
  | refused answer => cases hin

end Resumed

/-! ## A request by itself -/

/-- The checks of `request_handler` are `check`. -/
theorem request_handler_cases (faucet : FaucetState) (rpc : RpcState)
    (cooldowns : FaucetService.Cooldowns) (address amount : String) (now sent : Nat) :
    (∃ answer, check faucet cooldowns now address amount = .refused answer ∧
      FaucetService.request_handler faucet rpc cooldowns address amount now sent =
        (answer, rpc, cooldowns)) ∨
    (∃ recipient units, check faucet cooldowns now address amount = .checked recipient units ∧
      FaucetService.request_handler faucet rpc cooldowns address amount now sent =
        match FaucetService.drip faucet rpc recipient units with
        | none => (.error .INTERNAL_SERVER_ERROR, rpc, cooldowns)
        | some tx =>
          (.ok (.OK, ⟨true, tx.hash.to_string, "tokens sent"⟩),
            (LocalSubmitter.submit rpc tx).2, cooldowns.insert recipient sent)) := by
  unfold check FaucetService.request_handler
  rcases Address.from_str address with e | recipient
  · exact .inl ⟨_, rfl, rfl⟩
  rcases U128.from_str amount with e | units
  · exact .inl ⟨_, rfl, rfl⟩
  dsimp only
  split
  · exact .inl ⟨_, rfl, rfl⟩
  split
  · exact .inl ⟨_, rfl, rfl⟩
  · exact .inr ⟨recipient, units, rfl, rfl⟩

/-- A request that is not interrupted is one call of `request_handler`. -/
theorem request_alone (faucet : FaucetState) (w : FaucetSystem) (address amount : String) :
    let i := w.handlers.length
    let w' := w.run faucet [.request address amount, .resume i, .resume i, .resume i]
    let out := FaucetService.request_handler faucet w.rpc w.cooldowns address amount w.now w.now
    (w'.handlers[i]?.bind FaucetHandler.answer) = some out.1 ∧
      w'.rpc = out.2.1 ∧ w'.cooldowns = out.2.2 := by
  intro i w' out
  have hlast : ∀ h : FaucetHandler, (w.handlers ++ [h])[i]? = some h :=
    fun h => List.getElem?_concat_length ..
  have hset : ∀ h h' : FaucetHandler, (w.handlers ++ [h]).set i h' = w.handlers ++ [h'] := by
    simp [i]
  rcases request_handler_cases faucet w.rpc w.cooldowns address amount w.now w.now with
    ⟨answer, hcheck, hout⟩ | ⟨recipient, units, hcheck, hout⟩
  · have hw' : w' = { w with handlers := w.handlers ++ [.refused answer] } := by
      simp only [w', run, List.foldl_cons, List.foldl_nil, step, hcheck, resume, hlast]
    rw [hw', hlast]
    unfold out
    rw [hout]
    exact ⟨rfl, rfl, rfl⟩
  · unfold out
    rw [hout]
    rcases hdrip : FaucetService.drip faucet w.rpc recipient units with _ | tx
    · have hw' : w' = { w with
          handlers := w.handlers ++ [.refused (.error .INTERNAL_SERVER_ERROR)] } := by
        simp only [w', run, List.foldl_cons, List.foldl_nil, step, hcheck, resume, sign, hdrip,
          hlast, hset]
      rw [hw', hlast]
      exact ⟨rfl, rfl, rfl⟩
    · have hw' : w' = { w with
          rpc := (LocalSubmitter.submit w.rpc tx).2
          cooldowns := w.cooldowns.insert recipient w.now
          handlers := w.handlers ++ [.sent recipient tx tx.hash w.now] } := by
        simp only [w', run, List.foldl_cons, List.foldl_nil, step, hcheck, resume, sign, hdrip,
          hlast, hset]
        rfl
      rw [hw', hlast]
      exact ⟨rfl, rfl, rfl⟩

end FaucetSystem

end Pemrix

/-! ## A faucet with one key -/

namespace Pemrix.Drips

open Concrete (addr key payer)

def accounts : ExtTreeMap Address Account := (∅ : ExtTreeMap Address Account).insert payer ⟨100, 0⟩

/-- The signatures of the key over the hashes of three drips of 5: at nonce 0 to `addr 9` and to
`addr 8`, and at nonce 1 to `addr 8`. -/
def signatures : List (Bytes × Bytes) :=
  [([67, 90, 112, 139, 97, 91, 9, 189, 33, 234, 3, 6, 55, 130, 4, 239, 208, 169, 124, 119, 112, 69,
      230, 203, 243, 54, 180, 98, 44, 217, 9, 77],
      [92, 175, 67, 252, 139, 25, 75, 63, 91, 114, 155, 157, 232, 76, 8, 32, 122, 46, 59, 16, 164,
        198, 4, 62, 8, 166, 126, 91, 134, 100, 211, 144, 182, 93, 61, 226, 97, 190, 50, 175, 220,
        219, 67, 227, 215, 143, 252, 152, 34, 142, 46, 24, 12, 78, 38, 227, 82, 255, 185, 96, 55,
        182, 220, 11]),
    ([60, 105, 237, 62, 193, 45, 170, 179, 197, 147, 215, 120, 80, 104, 189, 8, 27, 14, 118, 207,
      234, 7, 225, 147, 213, 67, 225, 243, 73, 228, 180, 43],
      [1, 239, 90, 251, 22, 158, 251, 226, 196, 170, 17, 249, 20, 154, 6, 38, 71, 104, 93, 197, 224,
        54, 8, 167, 77, 172, 127, 155, 222, 35, 228, 190, 184, 224, 135, 129, 49, 125, 174, 191,
        179, 14, 153, 112, 112, 34, 115, 129, 46, 130, 28, 145, 247, 251, 231, 21, 9, 33, 152, 123,
        59, 40, 25, 5]),
    ([42, 229, 188, 16, 75, 37, 233, 84, 97, 166, 207, 129, 179, 40, 169, 10, 169, 85, 68, 169, 170,
      153, 241, 210, 1, 55, 12, 254, 98, 158, 98, 11],
      [31, 142, 104, 55, 255, 178, 211, 172, 54, 83, 114, 141, 245, 127, 158, 151, 152, 6, 244, 8,
        172, 46, 84, 115, 140, 77, 171, 117, 77, 150, 211, 238, 79, 144, 191, 172, 254, 5, 98, 202,
        43, 42, 219, 53, 63, 1, 105, 57, 130, 35, 198, 96, 153, 203, 174, 127, 170, 228, 227, 99,
        195, 132, 103, 13])]

scoped instance : Crates := crates (signatures.map fun (message, signature) =>
  (key, message, signature))

def faucet : FaucetState where
  max_amount := 10000
  cooldown_seconds := 60
  public_key := key
  sign message := signatures.lookup message
  faucet_address := payer
  submitter := ⟨payer⟩

def drip (byte : UInt8) (nonce : Nonce) (signature : Bytes) : Transaction :=
  { Transaction.transfer payer (addr byte) 5 nonce 0 with public_key := key, signature }

def first : Transaction := drip 9 0 signatures[0].2

/-- Another drip at the same nonce. -/
def second : Transaction := drip 8 0 signatures[1].2

/-- A request for a drip, by itself: it is handler `i`. -/
def request (byte : UInt8) (i : Nat) : List FaucetAction :=
  [.request (addr byte).to_string "5", .resume i, .resume i, .resume i]

example : BlockExecutor.verify_signature first = .ok () := by decide +kernel

end Pemrix.Drips
