-- Payments over the solo testnet, from the wallet to the ledger. A wallet reads its
-- nonce from the server, signs a transfer and sends it, and a round of the loop
-- follows. The testnet is a bank that makes every payment at once or refuses it, as
-- long as the pending list, which is never cleared, fits into a block.
import Pemrix.Bank
import Pemrix.Supply
import Pemrix.SoloLoop
import Pemrix.Wallet

open Std

namespace Pemrix

/-- The accounts of a ledger as a bank. -/
def Ledger.bank (L : Ledger) : Bank Address where
  balance a := (L.account a).balance.toNat
  nonce a := (L.account a).nonce.toNat

variable [Crates]

/-! ## Payments -/

structure Payment where
  wallet : Wallet
  recipient : Address
  amount : Balance
  fee : Balance

namespace Payment

def order (p : Payment) : Bank.Order Address :=
  ⟨p.wallet.address, p.recipient, p.amount.toNat, p.fee.toNat⟩

/-- The wallet reads its nonce, signs the transfer and sends it. -/
def submit (ed25519_sign : Bytes → Bytes → Bytes) (p : Payment) (s : RpcState) :
    Option (Except SdkError Hash × RpcState) :=
  match HttpClient.nonce (HttpClient.serve s) p.wallet.address with
  | .error e => some (.error e, s)
  | .ok nonce =>
    (p.wallet.transfer ed25519_sign p.recipient p.amount nonce p.fee).map fun tx =>
      HttpClient.send tx s

end Payment

namespace SoloTestnet

/-- A payment, and the round after it. -/
def serve_payment (ed25519_sign : Bytes → Bytes → Bytes) (t : SoloTestnet) (p : Payment)
    (now : UInt64) : Option (Except SdkError Hash × SoloTestnet) :=
  (p.submit ed25519_sign t.rpc_state).bind fun sent =>
    ({ t with rpc_state := sent.2 }.produce now).map fun t => (sent.1, t)

/-- Payments one after the other, with the answers that the wallets get. -/
def serve_payments (ed25519_sign : Bytes → Bytes → Bytes) (t : SoloTestnet) :
    List (Payment × UInt64) → Option (List (Except SdkError Hash) × SoloTestnet)
  | [] => some ([], t)
  | (p, now) :: script =>
    (serve_payment ed25519_sign t p now).bind fun served =>
      (serve_payments ed25519_sign served.2 script).map fun rest => (served.1 :: rest.1, rest.2)

/-- The balances and nonces that a client reads, and those in the store of the engine, are those
of a bank. -/
structure Shows (t : SoloTestnet) (b : Bank Address) : Prop where
  balance : ∀ a, ∃ balance, HttpClient.balance (HttpClient.serve t.rpc_state) a = .ok balance ∧
    t.consensus.state.balance a = .ok balance ∧ balance.toNat = b.balance a
  nonce : ∀ a, ∃ nonce, HttpClient.nonce (HttpClient.serve t.rpc_state) a = .ok nonce ∧
    t.consensus.state.nonce a = .ok nonce ∧ nonce.toNat = b.nonce a

end SoloTestnet

/-! ## A transfer on the ledger -/

section Transfer

variable {L : Ledger} {tx : Transaction}

/-- The sender has signed, the nonce is the next one and has a successor, and the balance covers
the amount and the fee. -/
structure Ledger.Pays (L : Ledger) (tx : Transaction) : Prop where
  verifies : BlockExecutor.verify_signature tx = .ok ()
  nonce : (L.account tx.sender).nonce = tx.nonce
  last : tx.nonce.toNat + 1 < 2 ^ 64
  covers : tx.amount.toNat + tx.fee.toNat ≤ (L.account tx.sender).balance.toNat
  payload : tx.payload = []

/-- The order in a transfer. -/
def Transaction.order (tx : Transaction) : Bank.Order Address :=
  ⟨tx.sender, tx.recipient, tx.amount.toNat, tx.fee.toNat⟩

omit [Crates] in
theorem Ledger.transfer_ok (hsound : L.Sound) {sender : Address} (recipient : Address)
    {amount : Balance} (hcovers : amount ≤ (L.account sender).balance) :
    (L.transfer sender recipient amount).1 = .ok ⟨true, 21000, "ok"⟩ := by
  unfold Ledger.transfer
  split
  · rfl
  · rw [if_neg (BitVec.not_lt.mpr hcovers)]
    have hfits := hsound.recipient_fits sender amount recipient hcovers
    simp only [U128.checked_add, if_pos hfits]

theorem Ledger.Pays.charges (h : L.Pays tx) : L.Charges tx := by
  refine ⟨h.verifies, h.nonce, BitVec.le_def.mpr ?_⟩
  have hcovers := h.covers
  omega

/-- The ledger after a transfer is what the bank makes of it. -/
theorem Ledger.Pays.execute (h : L.Pays tx) (hsound : L.Sound) :
    (L.execute tx).1 = .ok ⟨true, 21000, "ok"⟩ ∧
      (L.execute tx).2.1.bank = L.bank.pay tx.order := by
  have hcharges := h.charges
  have hfee := hcharges.2.2
  have hcovers := h.covers
  have hbound := (L.account tx.sender).balance.isLt
  have hsender : ((L.charge tx).account tx.sender).balance.toNat =
      (L.account tx.sender).balance.toNat - tx.fee.toNat := by
    rw [L.account_charge, U128.toNat_sub hfee]
  have hamount : tx.amount ≤ ((L.charge tx).account tx.sender).balance := by
    rw [BitVec.le_def, hsender]
    omega
  have hok := Ledger.transfer_ok (hsound.charge hfee) tx.recipient hamount
  have hfits := (hsound.charge hfee).recipient_fits tx.sender tx.amount tx.recipient hamount
  have hdispatch : (L.charge tx).dispatch tx =
      (L.charge tx).transfer tx.sender tx.recipient tx.amount := by
    unfold Ledger.dispatch
    rw [h.payload]
  have he : L.execute tx = _ :=
    (L.execute_cases tx).elim (fun hno => absurd hcharges hno.1) fun hyes => hyes.2
  rw [he, hdispatch]
  refine ⟨hok, ?_⟩
  -- The accounts after the debit: the sender without the total, the others as they were.
  have hpaid : ∀ a, ((L.charge tx).setBalance tx.sender
      (((L.charge tx).account tx.sender).balance - tx.amount)).account a =
        if tx.sender = a then
          ⟨(L.account tx.sender).balance - tx.fee - tx.amount, (L.account tx.sender).nonce + 1⟩
        else L.account a := by
    intro a
    rw [account_setBalance, L.account_charge]
    by_cases ha : tx.sender = a
    · rw [if_pos ha, if_pos ha]
    · rw [if_neg ha, if_neg ha]
      unfold Ledger.charge
      rw [account_setAccount, if_neg ha]
  have hbalance : ((L.account tx.sender).balance - tx.fee - tx.amount).toNat =
      (L.account tx.sender).balance.toNat - (tx.amount.toNat + tx.fee.toNat) := by
    rw [L.account_charge] at hamount
    rw [U128.toNat_sub hamount, U128.toNat_sub hfee]
    omega
  have hnonce : ((L.account tx.sender).nonce + 1).toNat =
      (L.account tx.sender).nonce.toNat + 1 := by
    have hlast := h.last
    rw [← h.nonce] at hlast
    rw [UInt64.toNat_add, UInt64.toNat_one, Nat.mod_eq_of_lt hlast]
  have haccounts := fun a => Ledger.account_transfer (L.charge tx) hamount hok a
  dsimp only at haccounts
  unfold Ledger.bank Bank.pay Transaction.order
  dsimp only
  rw [Bank.mk.injEq]
  constructor
  · funext a
    rw [haccounts, Function.update_apply, Function.update_apply, Function.update_apply]
    by_cases hto : tx.recipient = a
    · rw [if_pos hto, if_pos hto.symm]
      rw [hto] at hfits
      dsimp only
      rw [U128.saturating_add_of_lt hfits, U128.toNat_add hfits, hpaid, hto]
      by_cases hfrom : tx.sender = a
      · rw [if_pos hfrom, if_pos hfrom.symm]
        dsimp only
        rw [hbalance]
      · rw [if_neg hfrom, if_neg (Ne.symm hfrom)]
    · rw [if_neg hto, if_neg (Ne.symm hto), hpaid]
      by_cases hfrom : tx.sender = a
      · rw [if_pos hfrom, if_pos hfrom.symm]
        exact hbalance
      · rw [if_neg hfrom, if_neg (Ne.symm hfrom)]
  · funext a
    have hsame : ((((L.charge tx).transfer tx.sender tx.recipient tx.amount).2.1.account a).nonce) =
        (((L.charge tx).setBalance tx.sender
          (((L.charge tx).account tx.sender).balance - tx.amount)).account a).nonce := by
      rw [haccounts]
      split
      · rfl
      · rfl
    rw [hsame, hpaid, Function.update_apply]
    by_cases hfrom : tx.sender = a
    · rw [if_pos hfrom, if_pos hfrom.symm]
      exact hnonce
    · rw [if_neg hfrom, if_neg (Ne.symm hfrom)]

end Transfer

/-! ## Transactions that are old -/

section Old

variable {L : Ledger} {s : StateStore InMemoryBackend} {rpc : RpcState}

/-- Signed, with a nonce that its sender has passed. -/
structure Ledger.Old (L : Ledger) (tx : Transaction) : Prop where
  verifies : BlockExecutor.verify_signature tx = .ok ()
  nonce : tx.nonce.toNat < (L.account tx.sender).nonce.toNat

theorem Ledger.Old.nonce_ne {tx : Transaction} (h : L.Old tx) :
    (L.account tx.sender).nonce ≠ tx.nonce := by
  intro heq
  have hlt := h.nonce
  rw [heq] at hlt
  exact Nat.lt_irrefl _ hlt

/-- Old transactions in front of others do nothing in the engine. -/
theorem execute_all_old (hr : Represents s L) {old : List Transaction} (hold : ∀ tx ∈ old, L.Old tx)
    (rest : List Transaction) :
    BftConsensus.execute_all s (old ++ rest) = BftConsensus.execute_all s rest := by
  induction old with
  | nil => rfl
  | cons tx old ih =>
    obtain ⟨htx, hrest⟩ := List.forall_mem_cons.mp hold
    rw [List.cons_append, BftConsensus.execute_all,
      execute_of_nonce_ne htx.verifies (hr.nonce tx.sender) htx.nonce_ne]
    exact ih hrest

/-- And nothing in the RPC state. -/
theorem ingest_old (h : L.SameView rpc) {old : List Transaction} (hold : ∀ tx ∈ old, L.Old tx)
    (rest : List Transaction) :
    (old ++ rest).foldl Testnet.ingest_transaction rpc =
      rest.foldl Testnet.ingest_transaction rpc := by
  induction old with
  | nil => rfl
  | cons tx old ih =>
    obtain ⟨htx, hrest⟩ := List.forall_mem_cons.mp hold
    have hsame : Testnet.ingest_transaction rpc tx = rpc :=
      RpcState.replay_of_not_charges h id htx.verifies fun hcharges => htx.nonce_ne hcharges.2.1
    rw [List.cons_append, List.foldl_cons, hsame]
    exact ih hrest

end Old

/-! ## One round -/

namespace SoloTestnet

variable {t : SoloTestnet} {L : Ledger}

/-- A round whose transactions go through, with the RPC state after it. -/
theorem produce_round {s' : StateStore InMemoryBackend} (hheight : ¬ t.height > 100000)
    (h : BftConsensus.execute_all t.consensus.state
      ((t.mempool.transactions ++ t.rpc_state.pending).take 100) = (.ok (), s')) (now : UInt64) :
    ∃ t' block, t.produce now = some t' ∧ t'.consensus.state = s' ∧ t'.height = t.height + 1 ∧
      t'.rpc_state = (((t.mempool.transactions ++ t.rpc_state.pending).take 100).foldl
        Testnet.ingest_transaction t.rpc_state).store block ∧
      t'.rpc_state.pending = t.rpc_state.pending ∧
      t'.mempool.transactions = (t.mempool.transactions ++ t.rpc_state.pending).drop 100 ∧
      t'.blocks = t.blocks ++ [block] ∧
      block.body.transactions = (t.mempool.transactions ++ t.rpc_state.pending).take 100 := by
  obtain ⟨block, next, hpropose, hstate, hbody⟩ :=
    SoloConsensus.propose_of_execute_all h t.height now
  unfold produce
  rw [if_neg hheight]
  simp only [SimpleMempool.foldl_add, SimpleMempool.drain_eq, RpcState.pending_transactions,
    hpropose]
  refine ⟨_, block, rfl, hstate, rfl, ?_, ingest_block_pending t.rpc_state block, rfl, rfl, hbody⟩
  unfold Testnet.ingest_block
  rw [hbody]

/-- Between two payments: one ledger behind the store and the RPC state, and only old
transactions in the pending list, which fits into a block. -/
structure Settled (t : SoloTestnet) (L : Ledger) : Prop where
  represents : Represents t.consensus.state L
  view : L.SameView t.rpc_state
  sound : L.Sound
  supply : L.supply < 2 ^ 128 - 1
  mempool : t.mempool.transactions = []
  old : ∀ tx ∈ t.rpc_state.pending, L.Old tx
  room : t.rpc_state.pending.length ≤ 100

theorem start_settled (proposer : Address) (genesis_hash : Hash)
    {allocations : ExtTreeMap Address Account}
    (hsupply : allocations.sumBy (fun _ x => x.balance.toNat) < 2 ^ 128 - 1) :
    (start proposer genesis_hash allocations).Settled ⟨allocations, ∅, ∅⟩ := by
  have hsum : (⟨allocations, ∅, ∅⟩ : Ledger).supply < 2 ^ 128 - 1 := by
    simpa [Ledger.supply, Ledger.balances, Ledger.stakes] using hsupply
  refine ⟨represents_of_accounts allocations, sameView_genesis allocations,
    ⟨Ledger.consistent_of_accounts allocations, by omega⟩, hsum, rfl, ?_, Nat.zero_le _⟩
  intro tx htx
  cases htx

theorem balance_of_sameView {rpc : RpcState} (h : L.SameView rpc) (a : Address) :
    HttpClient.balance (HttpClient.serve rpc) a = .ok (L.account a).balance := by
  rw [HttpClient.balance_serve, ← h.accounts]
  unfold RpcState.account
  cases rpc.get_account a with
  | none => rfl
  | some x => rfl

theorem nonce_of_sameView {rpc : RpcState} (h : L.SameView rpc) (a : Address) :
    HttpClient.nonce (HttpClient.serve rpc) a = .ok (L.account a).nonce := by
  rw [HttpClient.nonce_serve, ← h.accounts]
  unfold RpcState.account
  cases rpc.get_account a with
  | none => rfl
  | some x => rfl

theorem shows_of_sameView (hr : Represents t.consensus.state L) (h : L.SameView t.rpc_state) :
    t.Shows L.bank :=
  ⟨fun a => ⟨_, balance_of_sameView h a, hr.balance a, rfl⟩,
    fun a => ⟨_, nonce_of_sameView h a, hr.nonce a, rfl⟩⟩

/-- A round in which nothing new is pending. -/
theorem Settled.idle_round (h : t.Settled L) (hheight : ¬ t.height > 100000) (now : UInt64) :
    ∃ t', t.produce now = some t' ∧ t'.Settled L ∧ t'.height = t.height + 1 ∧
      t'.rpc_state.pending = t.rpc_state.pending := by
  have htxs : (t.mempool.transactions ++ t.rpc_state.pending).take 100 =
      t.rpc_state.pending ++ [] := by
    rw [h.mempool, List.nil_append, List.append_nil, List.take_of_length_le h.room]
  have hexec : BftConsensus.execute_all t.consensus.state
      ((t.mempool.transactions ++ t.rpc_state.pending).take 100) =
        (.ok (), t.consensus.state) := by
    rw [htxs, execute_all_old h.represents h.old]
    rfl
  obtain ⟨t', block, hproduce, hstate, hnext, hrpc, hpending, hmempool, -⟩ :=
    produce_round hheight hexec now
  rw [htxs, ingest_old h.view h.old] at hrpc
  refine ⟨t', hproduce, ⟨?_, ?_, h.sound, h.supply, ?_, ?_, ?_⟩, hnext, hpending⟩
  · rw [hstate]
    exact h.represents
  · rw [hrpc]
    exact sameView_store h.view block
  · rw [hmempool, h.mempool, List.nil_append, List.drop_eq_nil_of_le h.room]
  · rw [hpending]
    exact h.old
  · rw [hpending]
    exact h.room

/-- A transfer is old when it is executed, and what was old before it is still old. -/
theorem old_after {tx : Transaction} (hpays : L.Pays tx) (hsound : L.Sound)
    {old : List Transaction} (hold : ∀ tx ∈ old, L.Old tx) :
    ∀ tx' ∈ old ++ [tx], (L.execute tx).2.1.Old tx' := by
  have hbank := (hpays.execute hsound).2
  have hnonce : ∀ a, ((L.execute tx).2.1.account a).nonce.toNat =
      (L.bank.pay tx.order).nonce a := by
    intro a
    rw [← hbank]
    rfl
  intro tx' htx'
  rcases List.mem_append.mp htx' with htx' | htx'
  · have hgrow := L.bank.le_nonce_pay tx.order tx'.sender
    rw [← hnonce] at hgrow
    exact ⟨(hold tx' htx').verifies, Nat.lt_of_lt_of_le (hold tx' htx').nonce hgrow⟩
  · obtain rfl := List.mem_singleton.mp htx'
    refine ⟨hpays.verifies, ?_⟩
    rw [hnonce, Bank.nonce_pay, if_pos (show tx'.sender = tx'.order.payer from rfl), ← hpays.nonce]
    exact Nat.lt_succ_self _

/-- A round that finds its block full of old transactions. -/
theorem Settled.late_round (h : t.Settled L) (hfull : t.rpc_state.pending.length = 100)
    (tx : Transaction) (hheight : ¬ t.height > 100000) (now : UInt64) :
    ∃ t' block, { t with rpc_state := t.rpc_state.submitted tx }.produce now = some t' ∧
      t'.Shows L.bank ∧ t'.blocks = t.blocks ++ [block] ∧
      block.body.transactions = t.rpc_state.pending := by
  have htxs : (t.mempool.transactions ++ (t.rpc_state.submitted tx).pending).take 100 =
      t.rpc_state.pending ++ [] := by
    rw [h.mempool, List.nil_append, List.append_nil]
    exact List.take_left' hfull
  have hexec : BftConsensus.execute_all t.consensus.state
      ((t.mempool.transactions ++ (t.rpc_state.submitted tx).pending).take 100) =
        (.ok (), t.consensus.state) := by
    rw [htxs, execute_all_old h.represents h.old]
    rfl
  have hview : L.SameView (t.rpc_state.submitted tx) :=
    ⟨h.view.accounts, h.view.validators, h.view.delegations⟩
  obtain ⟨t', block, hproduce, hstate, -, hrpc, -, -, hblocks, hbody⟩ :=
    produce_round (t := { t with rpc_state := t.rpc_state.submitted tx }) hheight hexec now
  dsimp only at hrpc hbody
  rw [htxs, ingest_old hview h.old] at hrpc
  rw [htxs, List.append_nil] at hbody
  refine ⟨t', block, hproduce, shows_of_sameView ?_ ?_, hblocks, hbody⟩
  · rw [hstate]
    exact h.represents
  · rw [hrpc]
    exact sameView_store hview block

/-- A round after one transfer is sent. -/
theorem Settled.fresh_round [LawfulRecords] (h : t.Settled L) {tx : Transaction}
    (hpays : L.Pays tx) (hroom : t.rpc_state.pending.length < 100) (hheight : ¬ t.height > 100000)
    (now : UInt64) :
    ∃ t', { t with rpc_state := t.rpc_state.submitted tx }.produce now = some t' ∧
      t'.Settled (L.execute tx).2.1 ∧ t'.height = t.height + 1 ∧
      t'.rpc_state.pending = t.rpc_state.pending ++ [tx] := by
  have hlength : (t.rpc_state.pending ++ [tx]).length ≤ 100 := by
    rw [List.length_append, List.length_singleton]
    exact hroom
  have htxs : (t.mempool.transactions ++ (t.rpc_state.submitted tx).pending).take 100 =
      t.rpc_state.pending ++ [tx] := by
    rw [h.mempool, List.nil_append]
    exact List.take_of_length_le hlength
  obtain ⟨hresult, hafter, -⟩ := execute_of_represents h.represents tx
  have hok := (hpays.execute h.sound).1
  have hexec : BftConsensus.execute_all t.consensus.state
      ((t.mempool.transactions ++ (t.rpc_state.submitted tx).pending).take 100) =
        (.ok (), (BlockExecutor.execute t.consensus.state tx).2) := by
    rw [htxs, execute_all_old h.represents h.old, BftConsensus.execute_all]
    rcases he : BlockExecutor.execute t.consensus.state tx with ⟨r, s'⟩
    rw [he, hok] at hresult
    dsimp only at hresult
    rw [hresult]
    rfl
  have hview : L.SameView (t.rpc_state.submitted tx) :=
    ⟨h.view.accounts, h.view.validators, h.view.delegations⟩
  obtain ⟨t', block, hproduce, hstate, hnext, hrpc, hpending, hmempool, -⟩ :=
    produce_round (t := { t with rpc_state := t.rpc_state.submitted tx }) hheight hexec now
  dsimp only at hrpc hmempool hpending
  rw [htxs, ingest_old hview h.old, List.foldl_cons, List.foldl_nil] at hrpc
  have hcovered : t.consensus.state.Charges tx → Covered t.consensus.state tx := by
    intro _
    have hlast := hpays.last
    exact ⟨by omega, _, h.represents.balance tx.sender, hpays.covers⟩
  have hingested := testnet_step h.represents hview ⟨_, hresult.trans hok⟩ hpays.payload hcovered
  obtain ⟨hsupply, -, hsound⟩ := Ledger.execute_conserves h.sound tx
  refine ⟨t', hproduce, ⟨?_, ?_, hsound, ?_, ?_, ?_, ?_⟩, hnext, hpending⟩
  · rw [hstate]
    exact hafter
  · rw [hrpc]
    exact sameView_store hingested block
  · have hbefore := h.supply
    split at hsupply
    · omega
    · omega
  · rw [hmempool, h.mempool, List.nil_append]
    exact List.drop_eq_nil_of_le hlength
  · rw [hpending]
    exact old_after hpays h.sound h.old
  · rw [hpending]
    exact hlength

end SoloTestnet

/-! ## The answer to a payment -/

section Answers

variable {ed25519_sign : Bytes → Bytes → Bytes} {p : Payment} {L : Ledger} {rpc : RpcState}

theorem Payment.submit_eq (h : L.SameView rpc) (hlawful : p.wallet.Lawful ed25519_sign) :
    ∃ tx, p.submit ed25519_sign rpc = some (HttpClient.send tx rpc) ∧
      (HttpClient.post_transaction tx).body.length ≤ body_limit ∧
      p.wallet.IsTransfer p.recipient p.amount (L.account p.wallet.address).nonce p.fee tx := by
  obtain ⟨tx, htransfer, htx⟩ := hlawful.transfer p.recipient p.amount
    (L.account p.wallet.address).nonce p.fee
  obtain ⟨hkey, hsignature, -⟩ := (verify_signature_ok_iff tx).mp htx.verifies
  refine ⟨tx, ?_, HttpClient.transfer_fits hkey hsignature htx.payload, htx⟩
  unfold Payment.submit
  rw [SoloTestnet.nonce_of_sameView h]
  dsimp only
  rw [htransfer]
  rfl

theorem Wallet.IsTransfer.order {nonce : Nonce} {tx : Transaction}
    (h : p.wallet.IsTransfer p.recipient p.amount nonce p.fee tx) : tx.order = p.order := by
  unfold Transaction.order Payment.order
  rw [h.sender, h.recipient, h.amount, h.fee]

theorem validate_of_no_account {tx : Transaction} (h : rpc.get_account tx.sender = none) :
    ∃ e, RpcServer.validate_transaction rpc tx = .error e := by
  unfold RpcServer.validate_transaction
  dsimp only
  rw [h]
  split
  · exact ⟨_, rfl⟩
  · split
    · exact ⟨_, rfl⟩
    · split
      · exact ⟨_, rfl⟩
      · exact ⟨_, rfl⟩

/-- A payment that the balance covers is accepted, and the transfer pays it. -/
theorem Payment.submit_of_covers (h : L.SameView rpc) (hsupply : L.supply < 2 ^ 128 - 1)
    (hlawful : p.wallet.Lawful ed25519_sign) (hpositive : 0 < p.amount.toNat + p.fee.toNat)
    (hlast : L.bank.nonce p.wallet.address + 1 < 2 ^ 64) (hcovers : L.bank.Covers p.order) :
    ∃ tx, p.submit ed25519_sign rpc = some (.ok tx.hash, rpc.submitted tx) ∧ L.Pays tx ∧
      tx.order = p.order := by
  obtain ⟨tx, hsubmit, hsize, htx⟩ := Payment.submit_eq h hlawful
  have hbalance : p.amount.toNat + p.fee.toNat ≤
      (L.account p.wallet.address).balance.toNat := hcovers
  have haccount := h.accounts p.wallet.address
  have hle := Ledger.balance_le_balances (L := L) p.wallet.address
  have hbound : (L.account p.wallet.address).balance.toNat < 2 ^ 128 - 1 := by
    unfold Ledger.supply at hsupply
    omega
  rcases hentry : rpc.get_account p.wallet.address with _ | x
  · unfold RpcState.account at haccount
    rw [hentry] at haccount
    rw [← haccount] at hbalance
    exact absurd (hpositive.trans_le hbalance) (Nat.lt_irrefl 0)
  unfold RpcState.account at haccount
  rw [hentry, Option.getD_some] at haccount
  have hpayable : Payable tx x := by
    refine ⟨htx.verifies, ?_, ?_⟩
    · rw [haccount, htx.nonce]
    · rw [haccount, htx.amount, htx.fee]
      exact hbalance
  rw [← htx.sender] at hentry
  rw [← haccount] at hbound
  obtain ⟨hash, hvalid⟩ := (validate_ok_iff hentry hbound).mpr hpayable
  rw [HttpClient.send_of_valid hsize hvalid] at hsubmit
  refine ⟨tx, hsubmit, ⟨htx.verifies, ?_, ?_, ?_, htx.payload⟩, htx.order⟩
  · rw [htx.sender, htx.nonce]
  · rw [htx.nonce]
    exact hlast
  · rw [htx.sender, htx.amount, htx.fee]
    exact hbalance

/-- Any other payment is refused, and the state stays. -/
theorem Payment.submit_of_not_covers (h : L.SameView rpc) (hsupply : L.supply < 2 ^ 128 - 1)
    (hlawful : p.wallet.Lawful ed25519_sign) (hcovers : ¬ L.bank.Covers p.order) :
    p.submit ed25519_sign rpc = some (.error (.Rpc none), rpc) := by
  obtain ⟨tx, hsubmit, hsize, htx⟩ := Payment.submit_eq h hlawful
  have haccount := h.accounts p.wallet.address
  have hle := Ledger.balance_le_balances (L := L) p.wallet.address
  have hbound : (L.account p.wallet.address).balance.toNat < 2 ^ 128 - 1 := by
    unfold Ledger.supply at hsupply
    omega
  have hrefused : ∃ e, RpcServer.validate_transaction rpc tx = .error e := by
    rcases hentry : rpc.get_account p.wallet.address with _ | x
    · rw [← htx.sender] at hentry
      exact validate_of_no_account hentry
    unfold RpcState.account at haccount
    rw [hentry, Option.getD_some] at haccount
    rw [← htx.sender] at hentry
    rw [← haccount] at hbound
    rcases hvalid : RpcServer.validate_transaction rpc tx with e | hash
    · exact ⟨e, rfl⟩
    · have hpays := ((validate_ok_iff hentry hbound).mp ⟨hash, hvalid⟩).covers
      rw [haccount, htx.amount, htx.fee] at hpays
      exact absurd hpays hcovers
  obtain ⟨e, he⟩ := hrefused
  rw [hsubmit, HttpClient.send_of_refused hsize he]

end Answers

/-! ## Scripts of payments -/

namespace SoloTestnet

variable [LawfulRecords] {ed25519_sign : Bytes → Bytes → Bytes} {t : SoloTestnet} {L : Ledger}

omit [Crates] [LawfulRecords] in
theorem height_succ {t t' : SoloTestnet} (hheight : ¬ t.height > 100000)
    (hnext : t'.height = t.height + 1) : t'.height.toNat = t.height.toNat + 1 := by
  rw [gt_iff_lt, UInt64.lt_iff_toNat_lt, Nat.not_lt] at hheight
  have hsmall : t.height.toNat ≤ 100000 := hheight
  rw [hnext, UInt64.toNat_add, UInt64.toNat_one]
  omega

/-- What one payment preserves: the bank makes it or refuses it. -/
theorem Settled.serve_payment (h : t.Settled L) {p : Payment}
    (hlawful : p.wallet.Lawful ed25519_sign) (hpositive : 0 < p.amount.toNat + p.fee.toNat)
    (hlast : L.bank.Covers p.order → L.bank.nonce p.wallet.address + 1 < 2 ^ 64)
    (hheight : ¬ t.height > 100000)
    (hroom : L.bank.Covers p.order → t.rpc_state.pending.length < 100) (now : UInt64) :
    ∃ answer t' L', t.serve_payment ed25519_sign p now = some (answer, t') ∧ t'.Settled L' ∧
      L'.bank = L.bank.attempt p.order ∧ Except.isOk answer = decide (L.bank.Covers p.order) ∧
      t'.height.toNat = t.height.toNat + 1 ∧
      t'.rpc_state.pending.length =
        t.rpc_state.pending.length + if L.bank.Covers p.order then 1 else 0 := by
  unfold SoloTestnet.serve_payment Bank.attempt
  by_cases hcovers : L.bank.Covers p.order
  · obtain ⟨tx, hsubmit, hpays, horder⟩ :=
      Payment.submit_of_covers h.view h.supply hlawful hpositive (hlast hcovers) hcovers
    obtain ⟨t', hproduce, hsettled, hnext, hpending⟩ :=
      h.fresh_round hpays (hroom hcovers) hheight now
    rw [hsubmit, Option.bind_some, hproduce, if_pos hcovers, if_pos hcovers, decide_eq_true hcovers]
    refine ⟨_, t', _, rfl, hsettled, ?_, rfl, height_succ hheight hnext, ?_⟩
    · rw [(hpays.execute h.sound).2, horder]
    · rw [hpending, List.length_append, List.length_singleton]
  · obtain ⟨t', hproduce, hsettled, hnext, hpending⟩ := h.idle_round hheight now
    rw [Payment.submit_of_not_covers h.view h.supply hlawful hcovers, Option.bind_some,
      if_neg hcovers, if_neg hcovers, decide_eq_false hcovers]
    refine ⟨.error (.Rpc none), t', L, ?_, hsettled, rfl, rfl, height_succ hheight hnext, ?_⟩
    · show Option.map _ (t.produce now) = _
      rw [hproduce]
      rfl
    · rw [hpending, Nat.add_zero]

/-- The orders of a script. -/
def orders (script : List (Payment × UInt64)) : List (Bank.Order Address) :=
  script.map fun entry => entry.1.order

/-- What a whole script preserves. -/
theorem Settled.serve_payments {script : List (Payment × UInt64)} (h : t.Settled L)
    (hlawful : ∀ entry ∈ script, entry.1.wallet.Lawful ed25519_sign)
    (hpositive : ∀ entry ∈ script, 0 < entry.1.amount.toNat + entry.1.fee.toNat)
    (hnonce : ∀ a, L.bank.nonce a + L.bank.paid (orders script) < 2 ^ 64)
    (hroom : t.rpc_state.pending.length + L.bank.paid (orders script) ≤ 100)
    (hheight : t.height.toNat + script.length ≤ 100001) :
    ∃ answers t' L', t.serve_payments ed25519_sign script = some (answers, t') ∧ t'.Settled L' ∧
      L'.bank = L.bank.run (orders script) ∧
      answers.map Except.isOk = L.bank.answers (orders script) ∧
      t'.height.toNat = t.height.toNat + script.length ∧
      t'.rpc_state.pending.length =
        t.rpc_state.pending.length + L.bank.paid (orders script) := by
  induction script generalizing t L with
  | nil => exact ⟨[], t, L, rfl, h, rfl, rfl, rfl, rfl⟩
  | cons entry script ih =>
    obtain ⟨p, now⟩ := entry
    obtain ⟨hp, hlawful⟩ := List.forall_mem_cons.mp hlawful
    obtain ⟨hpos, hpositive⟩ := List.forall_mem_cons.mp hpositive
    have hsplit : orders ((p, now) :: script) = p.order :: orders script := rfl
    rw [hsplit] at hnonce hroom ⊢
    rw [List.length_cons] at hheight
    have hlow : ¬ t.height > 100000 := by
      rw [gt_iff_lt, UInt64.lt_iff_toNat_lt, Nat.not_lt]
      show t.height.toNat ≤ 100000
      omega
    -- An order that is paid takes one nonce and one place in the block.
    have hpaid : L.bank.paid (p.order :: orders script) =
        (L.bank.attempt p.order).paid (orders script) +
          if L.bank.Covers p.order then 1 else 0 := by
      unfold Bank.attempt
      by_cases hcovers : L.bank.Covers p.order
      · rw [if_pos hcovers, if_pos hcovers, Bank.paid_cons_of_covers hcovers]
      · rw [if_neg hcovers, if_neg hcovers, Bank.paid_cons_of_not_covers hcovers]
        rfl
    have hgrow : ∀ a, (L.bank.attempt p.order).nonce a ≤
        L.bank.nonce a + if L.bank.Covers p.order then 1 else 0 := by
      intro a
      unfold Bank.attempt
      split
      · exact L.bank.nonce_pay_le p.order a
      · exact Nat.le_refl _
    have hlast : L.bank.Covers p.order → L.bank.nonce p.wallet.address + 1 < 2 ^ 64 := by
      intro hcovers
      have := hnonce p.wallet.address
      rw [hpaid, if_pos hcovers] at this
      omega
    have hroom' : L.bank.Covers p.order → t.rpc_state.pending.length < 100 := by
      intro hcovers
      rw [hpaid, if_pos hcovers] at hroom
      omega
    obtain ⟨answer, t1, L1, hserve, h1, hbank, hanswer, hheight1, hpending1⟩ :=
      h.serve_payment hp hpos hlast hlow hroom' now
    rw [← hbank] at hpaid hgrow
    dsimp only at hpending1
    obtain ⟨answers, t', L', hrest, h', hrun, hanswers, hheight', hpending'⟩ :=
      ih h1 hlawful hpositive
        (fun a => by
          have hle := hgrow a
          have hlt := hnonce a
          omega)
        (by omega) (by omega)
    refine ⟨answer :: answers, t', L', ?_, h', ?_, ?_, ?_, ?_⟩
    · rw [SoloTestnet.serve_payments, hserve, Option.bind_some, hrest]
      rfl
    · rw [hrun, hbank]
      rfl
    · rw [List.map_cons, hanswer, hanswers, hbank]
      rfl
    · rw [List.length_cons]
      omega
    · omega

omit [LawfulRecords] in
theorem serve_payments_append (t : SoloTestnet) (script more : List (Payment × UInt64)) :
    t.serve_payments ed25519_sign (script ++ more) =
      (t.serve_payments ed25519_sign script).bind fun served =>
        (served.2.serve_payments ed25519_sign more).map fun rest =>
          (served.1 ++ rest.1, rest.2) := by
  induction script generalizing t with
  | nil => simp [SoloTestnet.serve_payments]
  | cons entry script ih =>
    rw [List.cons_append, SoloTestnet.serve_payments, SoloTestnet.serve_payments]
    cases t.serve_payment ed25519_sign entry.1 entry.2 with
    | none => rfl
    | some served =>
      rw [Option.bind_some, Option.bind_some, ih]
      cases served.2.serve_payments ed25519_sign script with
      | none => rfl
      | some rest =>
        rw [Option.bind_some, Option.map_some, Option.bind_some]
        cases rest.2.serve_payments ed25519_sign more with
        | none => rfl
        | some last => rfl

/-- The allocations of a genesis as a bank. -/
def genesis_bank (allocations : ExtTreeMap Address Account) : Bank Address :=
  (⟨allocations, ∅, ∅⟩ : Ledger).bank

omit [Crates] [LawfulRecords] in
theorem start_height (proposer : Address) (genesis_hash : Hash)
    (allocations : ExtTreeMap Address Account) :
    (start proposer genesis_hash allocations).height.toNat = 1 := rfl

omit [Crates] [LawfulRecords] in
theorem start_pending (proposer : Address) (genesis_hash : Hash)
    (allocations : ExtTreeMap Address Account) :
    (start proposer genesis_hash allocations).rpc_state.pending.length = 0 := rfl

variable (ed25519_sign) in
/-- Wallets that pay over the solo testnet, one after the other and each with a round after it,
find a bank: each payment that the balance covers is accepted and made once, each other one is
refused and leaves no trace, and the client and the engine show the accounts of the bank. At most
100 of the payments are accepted, since no transaction leaves the pending list. -/
theorem payments_are_made (proposer : Address) (genesis_hash : Hash)
    (allocations : ExtTreeMap Address Account) (script : List (Payment × UInt64))
    (hlawful : ∀ entry ∈ script, entry.1.wallet.Lawful ed25519_sign)
    (hpositive : ∀ entry ∈ script, 0 < entry.1.amount.toNat + entry.1.fee.toNat)
    (hsupply : allocations.sumBy (fun _ x => x.balance.toNat) < 2 ^ 128 - 1)
    (hnonce : ∀ a, (genesis_bank allocations).nonce a +
      (genesis_bank allocations).paid (orders script) < 2 ^ 64)
    (hroom : (genesis_bank allocations).paid (orders script) ≤ 100)
    (hrounds : script.length ≤ 100000) :
    ∃ answers t, (start proposer genesis_hash allocations).serve_payments ed25519_sign script =
        some (answers, t) ∧
      answers.map Except.isOk = (genesis_bank allocations).answers (orders script) ∧
      t.Shows ((genesis_bank allocations).run (orders script)) := by
  have hheight := start_height proposer genesis_hash allocations
  obtain ⟨answers, t, L, hserve, hsettled, hbank, hanswers, -⟩ :=
    (start_settled proposer genesis_hash hsupply).serve_payments hlawful hpositive hnonce
      ((Nat.zero_add _).trans_le hroom) (by omega)
  exact ⟨answers, t, hserve, hanswers,
    (congrArg t.Shows hbank).mp (shows_of_sameView hsettled.represents hsettled.view)⟩

/-- The payment after 100 that were accepted is accepted too, and the round after it does not make
it: its block has the 100 old ones once more. -/
theorem payment_after_a_full_block_waits (proposer : Address) (genesis_hash : Hash)
    (allocations : ExtTreeMap Address Account) (script : List (Payment × UInt64)) (p : Payment)
    (now : UInt64)
    (hlawful : ∀ entry ∈ script ++ [(p, now)], entry.1.wallet.Lawful ed25519_sign)
    (hpositive : ∀ entry ∈ script ++ [(p, now)], 0 < entry.1.amount.toNat + entry.1.fee.toNat)
    (hsupply : allocations.sumBy (fun _ x => x.balance.toNat) < 2 ^ 128 - 1)
    (hnonce : ∀ a, (genesis_bank allocations).nonce a + 101 < 2 ^ 64)
    (hfull : (genesis_bank allocations).paid (orders script) = 100)
    (hrounds : script.length < 100000)
    (hcovers : ((genesis_bank allocations).run (orders script)).Covers p.order) :
    ∃ answers answer t t' block,
      (start proposer genesis_hash allocations).serve_payments ed25519_sign script =
        some (answers, t) ∧
      (start proposer genesis_hash allocations).serve_payments ed25519_sign (script ++ [(p, now)]) =
        some (answers ++ [answer], t') ∧ answer.isOk = true ∧
      t.rpc_state.pending.length = 100 ∧ t'.blocks = t.blocks ++ [block] ∧
      block.body.transactions = t.rpc_state.pending ∧
      t'.Shows ((genesis_bank allocations).run (orders script)) := by
  have hheight := start_height proposer genesis_hash allocations
  obtain ⟨hlawful, hp⟩ := List.forall_mem_append.mp hlawful
  obtain ⟨hpositive, hpos⟩ := List.forall_mem_append.mp hpositive
  obtain ⟨answers, t, L, hserve, hsettled, hbank, -, hheight', hpending⟩ :=
    (start_settled proposer genesis_hash hsupply).serve_payments hlawful hpositive
      (fun a => by
        have hlt := hnonce a
        unfold genesis_bank at hlt hfull
        omega)
      ((Nat.zero_add _).trans_le hfull.le) (by omega)
  rw [start_pending, Nat.zero_add] at hpending
  have hlow : ¬ t.height > 100000 := by
    rw [gt_iff_lt, UInt64.lt_iff_toNat_lt, Nat.not_lt]
    show t.height.toNat ≤ 100000
    omega
  have hnext : L.bank.nonce p.wallet.address + 1 < 2 ^ 64 := by
    have hle := (genesis_bank allocations).nonce_run_le (orders script) p.wallet.address
    have hlt := hnonce p.wallet.address
    rw [hbank]
    unfold genesis_bank at hle hlt hfull
    omega
  have hcovers' : L.bank.Covers p.order := by
    rw [hbank]
    exact hcovers
  obtain ⟨tx, hsubmit, -⟩ := Payment.submit_of_covers hsettled.view hsettled.supply
    (hp _ (List.mem_singleton_self _)) (hpos _ (List.mem_singleton_self _)) hnext hcovers'
  obtain ⟨t', block, hproduce, hshows, hblocks, hbody⟩ :=
    hsettled.late_round (hpending.trans hfull) tx hlow now
  have hlast : t.serve_payment ed25519_sign p now = some (.ok tx.hash, t') := by
    unfold SoloTestnet.serve_payment
    rw [hsubmit, Option.bind_some, hproduce]
    rfl
  refine ⟨answers, .ok tx.hash, t, t', block, hserve, ?_, rfl, hpending.trans hfull, hblocks, hbody,
    (congrArg t'.Shows hbank).mp hshows⟩
  rw [serve_payments_append, hserve, Option.bind_some, SoloTestnet.serve_payments, hlast]
  rfl

end SoloTestnet

end Pemrix

namespace Pemrix.PayerWallet

open Concrete (addr key payer signed_hash signature)

/-- The signature of the key over the hash of the transfer, and zeros over everything else. -/
def ed25519_sign (_secret message : Bytes) : Bytes :=
  if message = signed_hash then signature else List.replicate 64 0

/-- The crates, with a verifier of the one key. -/
scoped instance : Crates :=
  { crates [] with
    ed25519_verify := fun public_key message s => public_key = key ∧ s = ed25519_sign [] message }

scoped instance : LawfulRecords :=
  ⟨Codec.read_all_write SerdeJson.validator_record, Codec.read_all_write SerdeJson.delegation⟩

def wallet : Wallet := .from_keypair ⟨⟨key⟩, ⟨List.replicate 32 0⟩⟩

theorem wallet_address : wallet.address = payer := by decide +kernel

theorem wallet_lawful : wallet.Lawful ed25519_sign := by
  refine ⟨by decide, by decide, ?_, ?_⟩
  · intro message
    unfold ed25519_sign
    split
    · decide
    · decide
  · intro message
    exact decide_eq_true ⟨rfl, rfl⟩

def rich : ExtTreeMap Address Account := (∅ : ExtTreeMap Address Account).insert payer ⟨1000, 0⟩

theorem rich_nonce (a : Address) : (SoloTestnet.genesis_bank rich).nonce a = 0 := by
  unfold SoloTestnet.genesis_bank Ledger.bank Ledger.account rich
  dsimp only
  rw [ExtTreeMap.getElem?_insert]
  split
  · rfl
  · rw [ExtTreeMap.getElem?_empty]
    rfl

def payment (amount : Balance) : Payment := ⟨wallet, addr 9, amount, 1⟩

theorem payment_order (amount : Balance) :
    (payment amount).order = ⟨payer, addr 9, amount.toNat, 1⟩ := by
  unfold payment Payment.order
  rw [wallet_address]
  rfl

/-- A payment of 5 and one of more than is there. -/
theorem first_payment_is_made :
    let script := [(payment 5, 0), (payment 1000, 0)]
    ∃ answers t, (SoloTestnet.start (addr 7) default rich).serve_payments ed25519_sign script =
        some (answers, t) ∧
      answers.map Except.isOk = [true, false] ∧
      t.Shows ((SoloTestnet.genesis_bank rich).run (SoloTestnet.orders script)) := by
  intro script
  have horders : SoloTestnet.orders script =
      [⟨payer, addr 9, 5, 1⟩, ⟨payer, addr 9, 1000, 1⟩] := by
    show [(payment 5).order, (payment 1000).order] = _
    rw [payment_order, payment_order]
    rfl
  have hanswers : (SoloTestnet.genesis_bank rich).answers (SoloTestnet.orders script) =
      [true, false] := by
    rw [horders]
    decide +kernel
  have hpaid : (SoloTestnet.genesis_bank rich).paid (SoloTestnet.orders script) = 1 := by
    unfold Bank.paid
    rw [hanswers]
    rfl
  have hbound : ∀ a, (SoloTestnet.genesis_bank rich).nonce a +
      (SoloTestnet.genesis_bank rich).paid (SoloTestnet.orders script) < 2 ^ 64 := by
    intro a
    rw [rich_nonce, hpaid]
    decide
  obtain ⟨answers, t, hserve, hmap, hshows⟩ :=
    SoloTestnet.payments_are_made ed25519_sign (addr 7) default rich script
      (by simp [script, payment, wallet_lawful]) (by simp [script, payment]) (by decide +kernel)
      hbound (by rw [hpaid]; decide) (by decide)
  exact ⟨answers, t, hserve, hmap.trans hanswers, hshows⟩

/-- A hundred payments of 1, and one more. -/
theorem payment_101_waits :
    let script := List.replicate 100 (payment 1, (0 : UInt64))
    ∃ answers answer t t' block,
      (SoloTestnet.start (addr 7) default rich).serve_payments ed25519_sign script =
        some (answers, t) ∧
      (SoloTestnet.start (addr 7) default rich).serve_payments ed25519_sign
        (script ++ [(payment 1, 0)]) = some (answers ++ [answer], t') ∧ answer.isOk = true ∧
      t.rpc_state.pending.length = 100 ∧ t'.blocks = t.blocks ++ [block] ∧
      block.body.transactions = t.rpc_state.pending ∧
      t'.Shows ((SoloTestnet.genesis_bank rich).run (SoloTestnet.orders script)) := by
  intro script
  have horders : SoloTestnet.orders script = List.replicate 100 ⟨payer, addr 9, 1, 1⟩ := by
    unfold SoloTestnet.orders
    rw [List.map_replicate, payment_order]
    rfl
  have hrich : (SoloTestnet.genesis_bank rich).balance payer = 1000 := by decide +kernel
  obtain ⟨hpaid, hbalance⟩ := Bank.run_replicate (b := SoloTestnet.genesis_bank rich)
    (o := ⟨payer, addr 9, 1, 1⟩) (by decide) 100 (by rw [hrich]; decide)
  rw [← horders] at hpaid hbalance
  have hall : ∀ entry ∈ script ++ [(payment 1, 0)], entry.1 = payment 1 := by
    intro entry hentry
    rcases List.mem_append.mp hentry with hentry | hentry
    · rw [List.eq_of_mem_replicate hentry]
    · rw [List.mem_singleton.mp hentry]
  refine SoloTestnet.payment_after_a_full_block_waits (addr 7) default rich script (payment 1) 0
    (fun entry hentry => ?_) (fun entry hentry => ?_) (by decide +kernel)
    (fun a => ?_) hpaid ?_ ?_
  · rw [hall entry hentry]
    exact wallet_lawful
  · rw [hall entry hentry]
    decide
  · rw [rich_nonce]
    decide
  · rw [List.length_replicate]
    decide
  · rw [payment_order]
    unfold Bank.Covers
    dsimp only at hbalance ⊢
    rw [hbalance, hrich]
    decide

end Pemrix.PayerWallet
