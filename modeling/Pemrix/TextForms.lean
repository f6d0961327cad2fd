-- The text forms of the primitive types: hashes and addresses in hexadecimal, and
-- amounts in decimal, with what their parsers refuse.
import Pemrix.Storage

open Std

namespace Pemrix

open InMemoryBackend (hex_digit hex_encode)

/-! ## Hexadecimal -/

/-- The value of a digit, in either case. -/
def hex_value (c : Char) : Option Nat :=
  if 48 ≤ c.toNat ∧ c.toNat ≤ 57 then some (c.toNat - 48)
  else if 97 ≤ c.toNat ∧ c.toNat ≤ 102 then some (c.toNat - 87)
  else if 65 ≤ c.toNat ∧ c.toNat ≤ 70 then some (c.toNat - 55)
  else none

/-- What `hex::decode` gives: nothing for an odd number of digits or another sign. -/
def hex_decode : List Char → Option Bytes
  | [] => some []
  | [_] => none
  | h :: l :: rest =>
    (hex_value h).bind fun h => (hex_value l).bind fun l =>
      (hex_decode rest).map fun bytes => UInt8.ofNat (16 * h + l) :: bytes

theorem hex_value_hex_digit {n : Nat} (h : n < 16) : hex_value (hex_digit n) = some n := by
  decide +revert

theorem hex_decode_hex_encode (bytes : Bytes) :
    hex_decode (hex_encode bytes).toList = some bytes := by
  unfold hex_encode
  rw [String.toList_ofList]
  induction bytes with
  | nil => rfl
  | cons b bytes ih =>
    have hb := b.toNat_lt
    rw [List.flatMap_cons, List.cons_append, List.cons_append, List.nil_append, hex_decode,
      hex_value_hex_digit (by omega), Option.bind_some, hex_value_hex_digit (by omega),
      Option.bind_some, ih, Option.map_some, Nat.div_add_mod, UInt8.ofNat_toNat]

theorem hex_encode_inj : Function.Injective hex_encode := by
  intro s t h
  have hs := hex_decode_hex_encode s
  rw [h, hex_decode_hex_encode] at hs
  exact (Option.some.inj hs).symm

/-! ## Hashes and addresses -/

/-- The end of both parsers: 32 bytes in hexadecimal. -/
def parse_bytes32 (length_error : String) (digits : List Char) : Except String Bytes32 :=
  match hex_decode digits with
  | none => .error "invalid hex"
  | some bytes =>
    match try_into bytes with
    | none => .error length_error
    | some bytes => .ok bytes

theorem parse_bytes32_hex_encode (e : String) (v : Bytes32) :
    parse_bytes32 e (hex_encode v.toList).toList = .ok v := by
  have hbytes : try_into v.toList = some v := by
    unfold try_into
    rw [dif_pos (by rw [List.size_toArray, Vector.length_toList])]
    rfl
  unfold parse_bytes32
  simp only [hex_decode_hex_encode, hbytes]

def Hash.to_string (h : Hash) : String := hex_encode h.as_bytes

def Hash.from_str (s : String) : Except String Hash :=
  (parse_bytes32 "hash must be 32 bytes" s.toList).map Hash.mk

theorem Hash.from_str_to_string (h : Hash) : Hash.from_str h.to_string = .ok h := by
  show (parse_bytes32 _ (hex_encode h.bytes.toList).toList).map Hash.mk = _
  rw [parse_bytes32_hex_encode]
  rfl

def Address.to_string (a : Address) : String := "px" ++ hex_encode a.as_bytes

/-- What `strip_prefix("px").unwrap_or(s)` leaves. -/
def strip_px : List Char → List Char
  | 'p' :: 'x' :: rest => rest
  | s => s

def Address.from_str (s : String) : Except String Address :=
  (parse_bytes32 "address must be 32 bytes" (strip_px s.toList)).map Address.mk

theorem Address.from_str_to_string (a : Address) : Address.from_str a.to_string = .ok a := by
  have hstrip : strip_px a.to_string.toList = (hex_encode a.bytes.toList).toList := by
    unfold Address.to_string
    rw [String.toList_append]
    rfl
  unfold Address.from_str
  rw [hstrip, parse_bytes32_hex_encode]
  rfl

/-! ## Amounts -/

/-- Why `u128::from_str` refuses a text. -/
inductive IntErrorKind where
  | Empty
  | InvalidDigit
  | PosOverflow
  deriving DecidableEq

def IntErrorKind.to_string : IntErrorKind → String
  | .Empty => "cannot parse integer from empty string"
  | .InvalidDigit => "invalid digit found in string"
  | .PosOverflow => "number too large to fit in target type"

/-- The digits after those that gave `n`. -/
def parse_digits (n : Nat) : List Char → Except IntErrorKind U128
  | [] => .ok (BitVec.ofNat 128 n)
  | c :: rest =>
    if ¬ c.isDigit then .error .InvalidDigit
    else if 10 * n + (c.toNat - 48) < 2 ^ 128 then parse_digits (10 * n + (c.toNat - 48)) rest
    else .error .PosOverflow

/-- The method `str::parse::<u128>`: a plus sign may come first. -/
def U128.from_str (s : String) : Except IntErrorKind U128 :=
  match s.toList with
  | [] => .error .Empty
  | ['+'] => .error .InvalidDigit
  | '+' :: digits => parse_digits 0 digits
  | digits => parse_digits 0 digits

def U128.to_string (n : U128) : String := toString n.toNat

theorem le_ofDigitChars (digits : List Char) (n : Nat) : n ≤ Nat.ofDigitChars 10 digits n := by
  induction digits generalizing n with
  | nil => simp
  | cons c digits ih =>
    rw [Nat.ofDigitChars_cons]
    refine Nat.le_trans ?_ (ih _)
    omega

theorem parse_digits_of_lt (digits : List Char) (n : Nat) (hdigit : ∀ c ∈ digits, c.isDigit)
    (hlt : Nat.ofDigitChars 10 digits n < 2 ^ 128) :
    parse_digits n digits = .ok (BitVec.ofNat 128 (Nat.ofDigitChars 10 digits n)) := by
  induction digits generalizing n with
  | nil => rfl
  | cons c digits ih =>
    rw [Nat.ofDigitChars_cons] at hlt ⊢
    have hle := le_ofDigitChars digits (10 * n + (c.toNat - 48))
    have hc : c.isDigit := hdigit c List.mem_cons_self
    have hstep : 10 * n + (c.toNat - 48) < 2 ^ 128 := Nat.lt_of_le_of_lt hle hlt
    unfold parse_digits
    rw [if_neg (not_not.mpr hc), if_pos hstep]
    exact ih _ (fun d hd => hdigit d (List.mem_cons_of_mem c hd)) hlt

theorem U128.from_str_to_string (n : U128) : U128.from_str n.to_string = .ok n := by
  have hlist : n.to_string.toList = Nat.toDigits 10 n.toNat := Nat.toList_repr
  have hdigit : ∀ c ∈ Nat.toDigits 10 n.toNat, c.isDigit := fun c hc =>
    Nat.isDigit_of_mem_toDigits (by decide) (by decide) hc
  have hparse : parse_digits 0 (Nat.toDigits 10 n.toNat) = .ok n := by
    rw [parse_digits_of_lt _ _ hdigit (by rw [Nat.ofDigitChars_ten_toDigits]; exact n.isLt),
      Nat.ofDigitChars_ten_toDigits, BitVec.ofNat_toNat, BitVec.setWidth_eq]
  unfold U128.from_str
  rw [hlist]
  split
  · rename_i h
    exact absurd h Nat.toDigits_ne_nil
  · rename_i h
    have hplus := hdigit '+' (by rw [h]; exact List.mem_cons_self)
    cases hplus
  · rename_i digits _ h
    have hplus := hdigit '+' (by rw [h]; exact List.mem_cons_self)
    cases hplus
  · exact hparse

end Pemrix
