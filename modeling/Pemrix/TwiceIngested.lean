-- A block that is ingested twice. The second pass decides anew which transactions are taken,
-- in the accounts that the first one left. It changes nothing if and only if it takes none, but
-- for transfers at the last nonce of the `u64` that only move balances in a circle.
import Pemrix.Mirror
import Pemrix.Bft

open Std

namespace Pemrix

/-! ## The accounts as they are read -/

/-- The balance and the nonce of every address. -/
abbrev View := Address → Account

namespace View

/-- The largest nonce, where `saturating_add` stays. -/
def LAST_NONCE : Nonce := UInt64.ofNat (2 ^ 64 - 1)

def total (tx : Transaction) : Balance := U128.saturating_add tx.amount tx.fee

/-- The loop takes the transaction: its nonce is that of the sender, who has the total. -/
def Takes (v : View) (tx : Transaction) : Prop :=
  (v tx.sender).nonce = tx.nonce ∧ total tx ≤ (v tx.sender).balance

instance (v : View) (tx : Transaction) : Decidable (v.Takes tx) :=
  inferInstanceAs (Decidable (_ ∧ _))

def debit (v : View) (tx : Transaction) : View :=
  Function.update v tx.sender
    { balance := (v tx.sender).balance - total tx
      nonce := saturating_add_u64 (v tx.sender).nonce 1 }

def credit (v : View) (tx : Transaction) : View :=
  Function.update v tx.recipient { v tx.recipient with
    balance := U128.saturating_add (v tx.recipient).balance tx.amount }

/-- One turn of the loop, on the accounts as they are read. -/
def step (v : View) (tx : Transaction) : View := if v.Takes tx then (v.debit tx).credit tx else v

def run (v : View) (txs : List Transaction) : View := txs.foldl step v

/-- The transactions that a pass over a block takes, each with the accounts at its place. -/
def taken (v : View) : List Transaction → List (View × Transaction)
  | [] => []
  | tx :: txs =>
    if v.Takes tx then (v, tx) :: taken (v.step tx) txs else taken (v.step tx) txs

/-- The sender pays the amount and no fee, and the recipient gets all of it. -/
def Lossless (v : View) (tx : Transaction) : Prop :=
  total tx = tx.amount ∧ (v.debit tx tx.recipient).balance.toNat + tx.amount.toNat < 2 ^ 128

/-- What an address pays in some transfers. -/
def paid_out (txs : List (View × Transaction)) (a : Address) : Nat :=
  (txs.map fun e => if e.2.sender = a then e.2.amount.toNat else 0).sum

/-- What an address gets in some transfers. -/
def paid_in (txs : List (View × Transaction)) (a : Address) : Nat :=
  (txs.map fun e => if e.2.recipient = a then e.2.amount.toNat else 0).sum

/-- A pass over the block takes no transaction but transfers at the last nonce, which pay no
fee, are credited in full and give every address back what it paid. -/
structure Settled (v : View) (txs : List Transaction) : Prop where
  last_nonce : ∀ e ∈ v.taken txs, e.2.nonce = LAST_NONCE
  lossless : ∀ e ∈ v.taken txs, Lossless e.1 e.2
  circle : ∀ a, paid_out (v.taken txs) a = paid_in (v.taken txs) a

end View

namespace View

variable {v : View} {tx : Transaction}

theorem step_of_takes (h : v.Takes tx) : v.step tx = (v.debit tx).credit tx := if_pos h

theorem step_of_not_takes (h : ¬ v.Takes tx) : v.step tx = v := if_neg h

/-! ## One transaction -/

theorem next_nonce_le (n : Nonce) : n ≤ saturating_add_u64 n 1 := by
  have hn := n.toNat_lt
  rw [UInt64.le_iff_toNat_le]
  unfold saturating_add_u64
  split
  · rename_i hlt
    rw [UInt64.toNat_add, Nat.mod_eq_of_lt hlt]
    exact Nat.le_add_right ..
  · rw [UInt64.toNat_ofNat', Nat.mod_eq_of_lt (by decide)]
    omega

theorem next_nonce_eq_iff (n : Nonce) : saturating_add_u64 n 1 = n ↔ n = LAST_NONCE := by
  have hn := n.toNat_lt
  have hone : (1 : UInt64).toNat = 1 := rfl
  have hlast : LAST_NONCE.toNat = 2 ^ 64 - 1 := rfl
  rw [← UInt64.toNat_inj, ← UInt64.toNat_inj, hlast]
  unfold saturating_add_u64
  split
  · rename_i hlt
    rw [UInt64.toNat_add, Nat.mod_eq_of_lt hlt]
    omega
  · rename_i hge
    rw [UInt64.toNat_ofNat', Nat.mod_eq_of_lt (by decide)]
    omega

theorem nonce_step_of_takes (h : v.Takes tx) (a : Address) :
    (v.step tx a).nonce =
      if a = tx.sender then saturating_add_u64 (v a).nonce 1 else (v a).nonce := by
  have hcredit : ∀ w : View, ((w.credit tx) a).nonce = (w a).nonce := by
    intro w
    unfold credit
    rw [Function.update_apply]
    split
    · rename_i ha
      rw [ha]
    · rfl
  rw [step_of_takes h, hcredit]
  unfold debit
  rw [Function.update_apply]
  split
  · rename_i ha
    rw [ha]
  · rfl

theorem nonce_le_step (v : View) (tx : Transaction) (a : Address) :
    (v a).nonce ≤ (v.step tx a).nonce := by
  by_cases h : v.Takes tx
  · rw [nonce_step_of_takes h]
    split
    · exact next_nonce_le _
    · exact UInt64.le_refl _
  · rw [step_of_not_takes h]
    exact UInt64.le_refl _

/-- What is taken at its place moves its amount between the balances, if it is lossless. -/
theorem balance_step (h : v.Takes tx) (hlossless : v.Lossless tx) (a : Address) :
    (v.step tx a).balance.toNat + (if tx.sender = a then tx.amount.toNat else 0) =
      (v a).balance.toNat + if tx.recipient = a then tx.amount.toNat else 0 := by
  have hdebit : (v.debit tx a).balance.toNat + (if tx.sender = a then tx.amount.toNat else 0) =
      (v a).balance.toNat := by
    unfold debit
    rw [Function.update_apply]
    by_cases ha : tx.sender = a
    · subst ha
      have hle := BitVec.le_def.mp h.2
      rw [if_pos rfl, if_pos rfl]
      dsimp only
      rw [U128.toNat_sub h.2, hlossless.1]
      rw [hlossless.1] at hle
      omega
    · rw [if_neg ha, if_neg fun he => ha he.symm, Nat.add_zero]
  have hcredit : (v.step tx a).balance.toNat =
      (v.debit tx a).balance.toNat + if tx.recipient = a then tx.amount.toNat else 0 := by
    rw [step_of_takes h]
    unfold credit
    rw [Function.update_apply]
    by_cases ha : tx.recipient = a
    · subst ha
      rw [if_pos rfl, if_pos rfl]
      dsimp only
      rw [U128.saturating_add_of_lt hlossless.2, U128.toNat_add hlossless.2]
    · rw [if_neg ha, if_neg fun he => ha he.symm, Nat.add_zero]
  omega

/-- What some addresses hold together. -/
def held (v : View) (among : Finset Address) : Nat := ∑ a ∈ among, (v a).balance.toNat

theorem held_update {among : Finset Address} {a : Address} (ha : a ∈ among) (v : View)
    (x : Account) :
    held (Function.update v a x) among + (v a).balance.toNat = held v among + x.balance.toNat := by
  unfold held
  have hrest : ∑ b ∈ among.erase a, (Function.update v a x b).balance.toNat =
      ∑ b ∈ among.erase a, (v b).balance.toNat := by
    refine Finset.sum_congr rfl ?_
    intro b hb
    rw [Function.update_of_ne (Finset.ne_of_mem_erase hb)]
  rw [← Finset.add_sum_erase among _ ha, ← Finset.add_sum_erase among (fun a => _) ha, hrest,
    Function.update_self]
  omega

/-- A transaction leaves no more than there was, and as much only if it is lossless. -/
theorem held_step {among : Finset Address} (h : v.Takes tx) (hsender : tx.sender ∈ among)
    (hrecipient : tx.recipient ∈ among) :
    held (v.step tx) among ≤ held v among ∧
      (held (v.step tx) among = held v among → v.Lossless tx) := by
  have hdebit : held (v.debit tx) among + (total tx).toNat = held v among := by
    have hupdate : held (v.debit tx) among + _ = held v among + _ := held_update hsender v _
    have hle := BitVec.le_def.mp h.2
    dsimp only at hupdate
    rw [U128.toNat_sub h.2] at hupdate
    omega
  have hcredit : held (v.step tx) among + (v.debit tx tx.recipient).balance.toNat =
      held (v.debit tx) among +
        min ((v.debit tx tx.recipient).balance.toNat + tx.amount.toNat) (2 ^ 128 - 1) := by
    rw [step_of_takes h, ← U128.toNat_saturating_add]
    exact held_update hrecipient (v.debit tx) _
  have htotal : (total tx).toNat = min (tx.amount.toNat + tx.fee.toNat) (2 ^ 128 - 1) :=
    U128.toNat_saturating_add _ _
  have hamount := tx.amount.isLt
  refine ⟨by omega, ?_⟩
  intro heq
  exact ⟨BitVec.eq_of_toNat_eq (by omega), by omega⟩

/-! ## A pass over a block -/

variable {txs : List Transaction}

theorem run_cons (v : View) (tx : Transaction) (txs : List Transaction) :
    v.run (tx :: txs) = (v.step tx).run txs := rfl

theorem taken_cons_of_takes (h : v.Takes tx) (txs : List Transaction) :
    v.taken (tx :: txs) = (v, tx) :: (v.step tx).taken txs := if_pos h

theorem taken_cons_of_not_takes (h : ¬ v.Takes tx) (txs : List Transaction) :
    v.taken (tx :: txs) = v.taken txs := by
  have htaken : v.taken (tx :: txs) = (v.step tx).taken txs := if_neg h
  rw [htaken, step_of_not_takes h]

theorem nonce_le_run (v : View) (txs : List Transaction) (a : Address) :
    (v a).nonce ≤ (v.run txs a).nonce := by
  induction txs generalizing v with
  | nil => exact UInt64.le_refl _
  | cons tx txs ih => exact UInt64.le_trans (nonce_le_step v tx a) (ih (v.step tx))

/-- A pass that leaves the nonces takes nothing below the last nonce. -/
theorem last_nonce_of_nonces_kept (h : ∀ a, (v.run txs a).nonce = (v a).nonce) :
    ∀ e ∈ v.taken txs, e.2.nonce = LAST_NONCE := by
  induction txs generalizing v with
  | nil => simp [taken]
  | cons tx txs ih =>
    rw [run_cons] at h
    have hstep : ∀ a, (v.step tx a).nonce = (v a).nonce := by
      intro a
      refine UInt64.le_antisymm ?_ (nonce_le_step v tx a)
      rw [← h a]
      exact nonce_le_run (v.step tx) txs a
    have hlater := ih fun a => (h a).trans (hstep a).symm
    by_cases htakes : v.Takes tx
    · rw [taken_cons_of_takes htakes]
      have hnext := hstep tx.sender
      rw [nonce_step_of_takes htakes, if_pos rfl, next_nonce_eq_iff, htakes.1] at hnext
      intro e he
      rcases List.mem_cons.mp he with rfl | he
      · exact hnext
      · exact hlater e he
    · rw [step_of_not_takes htakes] at hlater
      rwa [taken_cons_of_not_takes htakes]

theorem held_run_le {among : Finset Address}
    (hamong : ∀ tx ∈ txs, tx.sender ∈ among ∧ tx.recipient ∈ among) (v : View) :
    held (v.run txs) among ≤ held v among := by
  induction txs generalizing v with
  | nil => exact Nat.le_refl _
  | cons tx txs ih =>
    refine Nat.le_trans (ih (fun tx' h => hamong tx' (List.mem_cons_of_mem _ h)) (v.step tx)) ?_
    obtain ⟨hsender, hrecipient⟩ := hamong tx (List.mem_cons_self ..)
    by_cases htakes : v.Takes tx
    · exact (held_step htakes hsender hrecipient).1
    · rw [step_of_not_takes htakes]

/-- A pass that leaves the balances loses nothing on the way. -/
theorem lossless_of_held_kept {among : Finset Address}
    (hamong : ∀ tx ∈ txs, tx.sender ∈ among ∧ tx.recipient ∈ among)
    (h : held (v.run txs) among = held v among) :
    ∀ e ∈ v.taken txs, Lossless e.1 e.2 := by
  induction txs generalizing v with
  | nil => simp [taken]
  | cons tx txs ih =>
    have hlater : ∀ tx' ∈ txs, tx'.sender ∈ among ∧ tx'.recipient ∈ among :=
      fun tx' h => hamong tx' (List.mem_cons_of_mem _ h)
    have hrest := held_run_le hlater (v.step tx)
    rw [run_cons] at h
    by_cases htakes : v.Takes tx
    · obtain ⟨hsender, hrecipient⟩ := hamong tx (List.mem_cons_self ..)
      obtain ⟨hle, hlossless⟩ := held_step htakes hsender hrecipient
      rw [taken_cons_of_takes htakes]
      intro e he
      rcases List.mem_cons.mp he with rfl | he
      · exact hlossless (by omega)
      · exact ih hlater (by omega) e he
    · rw [step_of_not_takes htakes] at h
      rw [taken_cons_of_not_takes htakes]
      exact ih hlater h

/-- What a pass does that takes only lossless transfers at the last nonce. -/
theorem run_of_lossless (hlast : ∀ e ∈ v.taken txs, e.2.nonce = LAST_NONCE)
    (hlossless : ∀ e ∈ v.taken txs, Lossless e.1 e.2) (a : Address) :
    (v.run txs a).nonce = (v a).nonce ∧
      (v.run txs a).balance.toNat + paid_out (v.taken txs) a =
        (v a).balance.toNat + paid_in (v.taken txs) a := by
  induction txs generalizing v with
  | nil => exact ⟨rfl, rfl⟩
  | cons tx txs ih =>
    rw [run_cons]
    by_cases htakes : v.Takes tx
    · rw [taken_cons_of_takes htakes] at hlast hlossless ⊢
      obtain ⟨hfirst, hlast⟩ := List.forall_mem_cons.mp hlast
      obtain ⟨hmoves, hlossless⟩ := List.forall_mem_cons.mp hlossless
      obtain ⟨hnonce, hbalance⟩ := ih hlast hlossless
      have hstep := balance_step htakes hmoves a
      refine ⟨?_, ?_⟩
      · rw [hnonce, nonce_step_of_takes htakes]
        split
        · rename_i ha
          rw [ha, next_nonce_eq_iff, htakes.1]
          exact hfirst
        · rfl
      · unfold paid_out paid_in at hbalance ⊢
        simp only [List.map_cons, List.sum_cons]
        omega
    · rw [taken_cons_of_not_takes htakes] at hlast hlossless ⊢
      rw [step_of_not_takes htakes]
      exact ih hlast hlossless

/-- The pass leaves all accounts as they are if and only if they are settled. -/
theorem run_eq_iff_settled (v : View) (txs : List Transaction) : v.run txs = v ↔ v.Settled txs := by
  constructor
  · intro h
    have hlast : ∀ e ∈ v.taken txs, e.2.nonce = LAST_NONCE :=
      last_nonce_of_nonces_kept fun a => by rw [h]
    have hamong : ∀ tx ∈ txs,
        tx.sender ∈ (txs.map (·.sender) ++ txs.map (·.recipient)).toFinset ∧
          tx.recipient ∈ (txs.map (·.sender) ++ txs.map (·.recipient)).toFinset := by
      intro tx htx
      simp only [List.mem_toFinset, List.mem_append]
      exact ⟨.inl (List.mem_map_of_mem htx), .inr (List.mem_map_of_mem htx)⟩
    have hlossless : ∀ e ∈ v.taken txs, Lossless e.1 e.2 :=
      lossless_of_held_kept hamong (by rw [h])
    refine ⟨hlast, hlossless, ?_⟩
    intro a
    have hbalance := (run_of_lossless hlast hlossless a).2
    rw [h] at hbalance
    omega
  · intro h
    funext a
    obtain ⟨hnonce, hbalance⟩ := run_of_lossless h.last_nonce h.lossless a
    have hcircle := h.circle a
    have hbalance : (v.run txs a).balance = (v a).balance := BitVec.eq_of_toNat_eq (by omega)
    calc v.run txs a = ⟨(v.run txs a).balance, (v.run txs a).nonce⟩ := rfl
      _ = ⟨(v a).balance, (v a).nonce⟩ := by rw [hbalance, hnonce]

theorem taken_eq_nil_iff : v.taken txs = [] ↔ ∀ tx ∈ txs, ¬ v.Takes tx := by
  induction txs with
  | nil => simp [taken]
  | cons tx txs ih =>
    rw [List.forall_mem_cons, ← ih]
    by_cases htakes : v.Takes tx
    · simp [taken_cons_of_takes htakes, htakes]
    · simp [taken_cons_of_not_takes htakes, htakes]

theorem mem_of_mem_taken {e : View × Transaction} (h : e ∈ v.taken txs) : e.2 ∈ txs := by
  induction txs generalizing v with
  | nil => simp [taken] at h
  | cons tx txs ih =>
    by_cases htakes : v.Takes tx
    · rw [taken_cons_of_takes htakes] at h
      rcases List.mem_cons.mp h with rfl | h
      · exact List.mem_cons_self ..
      · exact List.mem_cons_of_mem _ (ih h)
    · rw [taken_cons_of_not_takes htakes] at h
      exact List.mem_cons_of_mem _ (ih h)

/-- Below the last nonce, the accounts are settled when no transaction would be taken now. -/
theorem settled_iff_of_nonces (hnonces : ∀ tx ∈ txs, tx.nonce ≠ LAST_NONCE) :
    v.Settled txs ↔ ∀ tx ∈ txs, ¬ v.Takes tx := by
  rw [← taken_eq_nil_iff]
  constructor
  · intro h
    rw [List.eq_nil_iff_forall_not_mem]
    intro e he
    exact hnonces e.2 (mem_of_mem_taken he) (h.last_nonce e he)
  · intro h
    refine ⟨?_, ?_, ?_⟩
    · simp [h]
    · simp [h]
    · intro a
      rw [h]
      rfl

end View

/-! ## The loop and the view -/

theorem RpcState.account_ingest_transaction (s : RpcState) (tx : Transaction) :
    (Testnet.ingest_transaction s tx).account = View.step s.account tx := by
  have hleft : ∀ h : ¬ View.Takes s.account tx, View.step s.account tx = s.account :=
    View.step_of_not_takes
  unfold Testnet.ingest_transaction RpcState.replay
  dsimp only
  split
  · rename_i hnonce
    rw [hleft fun h => hnonce h.1]
  split
  · rename_i htotal
    rw [hleft fun h => absurd htotal (BitVec.not_lt.mpr h.2)]
  · rename_i hnonce htotal
    have hle := BitVec.not_lt.mp htotal
    rw [View.step_of_takes ⟨not_not.mp hnonce, hle⟩]
    have hpaid : ∀ b, (s.set_account tx.sender
        { balance := U128.saturating_sub (s.account tx.sender).balance
            (U128.saturating_add tx.amount tx.fee)
          nonce := saturating_add_u64 (s.account tx.sender).nonce 1 }).account b =
        View.debit s.account tx b := by
      intro b
      rw [account_set_account, U128.saturating_sub_of_le hle]
      unfold View.debit View.total
      rw [Function.update_apply]
      simp only [eq_comm]
    funext a
    rw [id_eq, account_set_account, hpaid, hpaid]
    unfold View.credit
    rw [Function.update_apply]
    simp only [eq_comm]

variable [Crates]

theorem RpcState.account_ingest_block (s : RpcState) (block : Block) :
    (Testnet.ingest_block s block).account = View.run s.account block.body.transactions := by
  have hloop : ∀ (txs : List Transaction) (s : RpcState),
      (txs.foldl Testnet.ingest_transaction s).account = View.run s.account txs := by
    intro txs
    induction txs with
    | nil => exact fun _ => rfl
    | cons tx txs ih =>
      intro s
      rw [List.foldl_cons, ih, account_ingest_transaction]
      rfl
  rw [← hloop]
  funext a
  exact account_store _ block a

/-- The second ingestion of a block leaves every account as it is if and only if the accounts
are settled before it. Below the last nonce that is: in the accounts before the second
ingestion no transaction of the block has the nonce of its sender and the balance it takes. -/
theorem second_ingestion_changes_nothing_iff (s : RpcState) (block : Block) :
    let once := Testnet.ingest_block s block
    let txs := block.body.transactions
    ((∀ a, (Testnet.ingest_block once block).account a = once.account a) ↔
      View.Settled once.account txs) ∧
    ((∀ tx ∈ txs, tx.nonce ≠ View.LAST_NONCE) →
      (View.Settled once.account txs ↔ ∀ tx ∈ txs, ¬ View.Takes once.account tx)) := by
  intro once txs
  refine ⟨?_, View.settled_iff_of_nonces⟩
  rw [← View.run_eq_iff_settled, RpcState.account_ingest_block, funext_iff]

end Pemrix

/-! ## Two transfers in the wrong order -/

namespace Pemrix.WrongOrder

open Concrete (key payer paying transfer)

/-- The hash that the signature of `second` covers. -/
def signed_hash : Bytes :=
  [81, 78, 35, 77, 48, 84, 37, 160, 141, 73, 218, 191, 185, 229, 45, 214, 37, 181, 156, 136,
    214, 246, 211, 93, 100, 131, 73, 229, 8, 148, 87, 148]

/-- The signature of the key over the hash. -/
def signature : Bytes :=
  [163, 88, 145, 242, 227, 210, 113, 83, 220, 81, 70, 104, 162, 21, 174, 32, 169, 179, 183, 62,
    4, 194, 5, 241, 233, 150, 140, 185, 184, 175, 87, 97, 73, 242, 66, 136, 152, 185, 33, 120, 53,
    248, 171, 221, 150, 72, 230, 147, 66, 10, 84, 142, 80, 29, 95, 169, 224, 29, 123, 216, 234,
    215, 210, 10]

/-- The transfer that comes after `transfer`. -/
def second : Transaction := { transfer with nonce := 1, signature }

scoped instance : Crates := crates
  [(key, Concrete.signed_hash, Concrete.signature), (key, signed_hash, signature)]

def header : BlockHeader := ⟨1, 0, default, default, default, payer.bytes⟩

def block : Block := ⟨header, ⟨[second, transfer]⟩⟩

/-- The executor takes the block, and the first ingestion gives its accounts. The transfer that
comes too early goes through in the second ingestion. -/
theorem wrong_order_is_ingested_twice :
    let store : StateStore InMemoryBackend := ⟨⟨paying, ∅⟩⟩
    let executed := BftConsensus.execute_all store block.body.transactions
    let once := Testnet.ingest_block (.from_genesis paying) block
    let twice := Testnet.ingest_block once block
    executed.1 = .ok () ∧ executed.2.get_account payer = .ok (some ⟨94, 1⟩) ∧
      once.account payer = ⟨94, 1⟩ ∧ twice.account payer = ⟨88, 2⟩ ∧
      ¬ ∀ a, twice.account a = once.account a := by
  intro store executed once twice
  have honce : once.account payer = ⟨94, 1⟩ := by decide +kernel
  have htwice : twice.account payer = ⟨88, 2⟩ := by decide +kernel
  refine ⟨by decide +kernel, by decide +kernel, honce, htwice, ?_⟩
  intro hsame
  have hpayer := hsame payer
  rw [honce, htwice] at hpayer
  cases hpayer

/-- In the right order the block can come again. -/
theorem right_order_can_come_again :
    let once := Testnet.ingest_block (.from_genesis paying) ⟨header, ⟨[transfer, second]⟩⟩
    View.Settled once.account [transfer, second] := by
  intro once
  have hexact := (second_ingestion_changes_nothing_iff (.from_genesis paying)
    ⟨header, ⟨[transfer, second]⟩⟩).2
  refine (hexact ?_).mpr ?_
  · decide
  · decide +kernel

end Pemrix.WrongOrder
