-- The machine operations of the reward and slashing code, each with what it notes and, where it
-- is exact, what it comes to.
import Pemrix.Noted
import Pemrix.Primitives

namespace Pemrix

/-- One operation on machine integers with its operands; on `u128` where the name gives no
other type. -/
inductive MachineOp where
  | add_u64 (a b : UInt64)
  | sub (a b : U128)
  | mul (a b : U128)
  | div (a b : U128)
  | saturating_add (a b : U128)
  | saturating_sub (a b : U128)
  deriving DecidableEq

/-- The operation gives the exact result: no overflow, no underflow, no saturation and no
division by zero. -/
def MachineOp.Exact : MachineOp → Prop
  | .add_u64 a b => a.toNat + b.toNat < 2 ^ 64
  | .sub a b | .saturating_sub a b => b.toNat ≤ a.toNat
  | .mul a b => a.toNat * b.toNat < 2 ^ 128
  | .div _ b => b.toNat ≠ 0
  | .saturating_add a b => a.toNat + b.toNat < 2 ^ 128

/-- Code on machine integers. -/
abbrev Arith := Noted MachineOp

namespace Arith

open Noted

def add_u64 (a b : UInt64) : Arith UInt64 :=
  noted (.add_u64 a b) (a + b)

def sub (a b : U128) : Arith U128 :=
  noted (.sub a b) (a - b)

def mul (a b : U128) : Arith U128 :=
  noted (.mul a b) (a * b)

def div (a b : U128) : Arith U128 :=
  noted (.div a b) (a / b)

def saturating_add (a b : U128) : Arith U128 :=
  noted (.saturating_add a b) (U128.saturating_add a b)

def saturating_sub (a b : U128) : Arith U128 :=
  noted (.saturating_sub a b) (U128.saturating_sub a b)

variable {a b : U128}

theorem meets_add_u64 {a b : UInt64} (h : a.toNat + b.toNat < 2 ^ 64) :
    Meets MachineOp.Exact (add_u64 a b) fun c => c.toNat = a.toNat + b.toNat :=
  meets_noted h (by rw [UInt64.toNat_add, Nat.mod_eq_of_lt h])

theorem meets_sub (h : b.toNat ≤ a.toNat) :
    Meets MachineOp.Exact (sub a b) fun c => c.toNat = a.toNat - b.toNat :=
  meets_noted h (U128.toNat_sub (BitVec.le_def.mpr h))

theorem meets_mul (h : a.toNat * b.toNat < 2 ^ 128) :
    Meets MachineOp.Exact (mul a b) fun c => c.toNat = a.toNat * b.toNat :=
  meets_noted h (by rw [BitVec.toNat_mul, Nat.mod_eq_of_lt h])

theorem meets_div (h : b.toNat ≠ 0) :
    Meets MachineOp.Exact (div a b) fun c => c.toNat = a.toNat / b.toNat :=
  meets_noted h BitVec.toNat_udiv

theorem meets_saturating_add (h : a.toNat + b.toNat < 2 ^ 128) :
    Meets MachineOp.Exact (saturating_add a b) fun c => c.toNat = a.toNat + b.toNat :=
  meets_noted h (by rw [U128.saturating_add_of_lt h, U128.toNat_add h])

theorem meets_saturating_sub (h : b.toNat ≤ a.toNat) :
    Meets MachineOp.Exact (saturating_sub a b) fun c => c.toNat = a.toNat - b.toNat :=
  meets_noted h (by
    rw [U128.saturating_sub_of_le (BitVec.le_def.mpr h), U128.toNat_sub (BitVec.le_def.mpr h)])

end Arith

end Pemrix
