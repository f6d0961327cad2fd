-- A bank that makes payments or refuses them, in exact numbers: what the ledger of a
-- chain is for, whatever the addresses and the transactions are.
import Mathlib

/-- What each account has, and how often it has paid. -/
structure Bank (A : Type) where
  balance : A → Nat
  nonce : A → Nat

namespace Bank

variable {A : Type} [DecidableEq A]

omit [DecidableEq A] in
/-- A payment that the bank is asked for. The fee is burned. -/
structure Order (A : Type) where
  payer : A
  payee : A
  amount : Nat
  fee : Nat

omit [DecidableEq A] in
def Covers (b : Bank A) (o : Order A) : Prop := o.amount + o.fee ≤ b.balance o.payer

omit [DecidableEq A] in
instance (b : Bank A) (o : Order A) : Decidable (b.Covers o) :=
  inferInstanceAs (Decidable (_ ≤ _))

/-- The payer pays, and then the payee has the amount on top. -/
def pay (b : Bank A) (o : Order A) : Bank A :=
  let balance := Function.update b.balance o.payer (b.balance o.payer - (o.amount + o.fee))
  { balance := Function.update balance o.payee (balance o.payee + o.amount)
    nonce := Function.update b.nonce o.payer (b.nonce o.payer + 1) }

def attempt (b : Bank A) (o : Order A) : Bank A := if b.Covers o then b.pay o else b

def run (b : Bank A) (orders : List (Order A)) : Bank A := orders.foldl attempt b

/-- For each order, whether it is paid. -/
def answers (b : Bank A) : List (Order A) → List Bool
  | [] => []
  | o :: orders => decide (b.Covers o) :: answers (b.attempt o) orders

/-- The number of orders that are paid. -/
def paid (b : Bank A) (orders : List (Order A)) : Nat := (b.answers orders).count true

theorem paid_cons_of_covers {b : Bank A} {o : Order A} (h : b.Covers o) (orders : List (Order A)) :
    b.paid (o :: orders) = (b.pay o).paid orders + 1 := by
  unfold paid
  rw [answers, decide_eq_true h, List.count_cons_self, attempt, if_pos h]

theorem paid_cons_of_not_covers {b : Bank A} {o : Order A} (h : ¬ b.Covers o)
    (orders : List (Order A)) : b.paid (o :: orders) = b.paid orders := by
  unfold paid
  rw [answers, decide_eq_false h, List.count_cons_of_ne (by decide), attempt, if_neg h]

theorem nonce_pay (b : Bank A) (o : Order A) (a : A) :
    (b.pay o).nonce a = if a = o.payer then b.nonce a + 1 else b.nonce a := by
  unfold pay
  dsimp only
  rw [Function.update_apply]
  split
  · rename_i ha
    rw [ha]
  · rfl

theorem le_nonce_pay (b : Bank A) (o : Order A) (a : A) : b.nonce a ≤ (b.pay o).nonce a := by
  rw [nonce_pay]
  split
  · exact Nat.le_succ _
  · exact Nat.le_refl _

theorem nonce_pay_le (b : Bank A) (o : Order A) (a : A) :
    (b.pay o).nonce a ≤ b.nonce a + 1 := by
  rw [nonce_pay]
  split
  · exact Nat.le_refl _
  · exact Nat.le_succ _

theorem nonce_run_le (b : Bank A) (orders : List (Order A)) (a : A) :
    (b.run orders).nonce a ≤ b.nonce a + b.paid orders := by
  induction orders generalizing b with
  | nil => exact Nat.le_add_right _ _
  | cons o orders ih =>
    have hrest := ih (b.attempt o)
    unfold attempt at hrest
    by_cases h : b.Covers o
    · rw [if_pos h] at hrest
      have hstep := b.nonce_pay_le o a
      rw [paid_cons_of_covers h, run, List.foldl_cons, attempt, if_pos h]
      unfold run at hrest
      omega
    · rw [if_neg h] at hrest
      rw [paid_cons_of_not_covers h, run, List.foldl_cons, attempt, if_neg h]
      exact hrest

/-! ## One order again and again -/

theorem balance_pay_payer {b : Bank A} {o : Order A} (hne : o.payee ≠ o.payer) :
    (b.pay o).balance o.payer = b.balance o.payer - (o.amount + o.fee) := by
  unfold pay
  dsimp only
  rw [Function.update_of_ne (Ne.symm hne), Function.update_self]

/-- A payer that has enough for all of them. -/
theorem run_replicate {o : Order A} (hne : o.payee ≠ o.payer) (n : Nat) {b : Bank A}
    (h : n * (o.amount + o.fee) ≤ b.balance o.payer) :
    b.paid (List.replicate n o) = n ∧
      (b.run (List.replicate n o)).balance o.payer =
        b.balance o.payer - n * (o.amount + o.fee) := by
  induction n generalizing b with
  | zero => exact ⟨rfl, by rw [Nat.zero_mul]; rfl⟩
  | succ n ih =>
    rw [Nat.succ_mul] at h ⊢
    have hcovers : b.Covers o := (Nat.le_add_left _ _).trans h
    have hpay := balance_pay_payer (b := b) hne
    obtain ⟨hpaid, hbalance⟩ := ih (b := b.pay o) (by omega)
    have hattempt : b.attempt o = b.pay o := by
      unfold attempt
      rw [if_pos hcovers]
    rw [List.replicate_succ, paid_cons_of_covers hcovers, run, List.foldl_cons, hattempt]
    unfold run at hbalance
    exact ⟨congrArg (· + 1) hpaid, by omega⟩

end Bank
