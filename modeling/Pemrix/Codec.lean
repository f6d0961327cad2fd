-- Text formats that read back what they write. A codec carries the law as a
-- field, so a format put together from smaller ones has it without a proof of
-- its own. The formats are the ones compact JSON is made of.
import Mathlib

/-! ## The structure -/

/-- The text goes on with something other than a digit, or ends here. -/
def Codec.Ends (s : List UInt8) : Prop := ∀ b ∈ s.head?, ¬ (48 ≤ b ∧ b ≤ 57)

instance (s : List UInt8) : Decidable (Codec.Ends s) :=
  inferInstanceAs (Decidable (∀ b ∈ s.head?, ¬ (48 ≤ b ∧ b ≤ 57)))

/-- How a value is written, and how it is read from the front of a text. -/
structure Codec (α : Type) where
  write : α → List UInt8
  read : List UInt8 → Option (α × List UInt8)
  read_write : ∀ a rest, Codec.Ends rest → read (write a ++ rest) = some (a, rest)

namespace Codec

variable {α β : Type}

theorem ends_nil : Ends [] := by
  intro b hb
  cases hb

theorem Ends.append {s : List UInt8} (h : Ends s) (hne : s ≠ []) (t : List UInt8) :
    Ends (s ++ t) := by
  cases s with
  | nil => exact absurd rfl hne
  | cons c s => exact h

/-- Read a whole text. -/
def read_all (c : Codec α) (s : List UInt8) : Option α :=
  match c.read s with
  | some (a, []) => some a
  | _ => none

theorem read_all_write (c : Codec α) (a : α) : c.read_all (c.write a) = some a := by
  have h := c.read_write a [] ends_nil
  rw [List.append_nil] at h
  simp only [read_all, h]

/-! ## Fixed text -/

/-- Take a fixed text off the front. -/
def strip (text s : List UInt8) : Option (List UInt8) :=
  if text.isPrefixOf s then some (s.drop text.length) else none

theorem strip_append (text s : List UInt8) : strip text (text ++ s) = some s := by
  unfold strip
  rw [if_pos (List.isPrefixOf_iff_prefix.mpr (List.prefix_append text s)), List.drop_left]

/-- A fixed text, then the value. -/
def after (text : List UInt8) (c : Codec α) : Codec α where
  write a := text ++ c.write a
  read s := (strip text s).bind c.read
  read_write a rest h := by
    rw [List.append_assoc, strip_append]
    exact c.read_write a rest h

/-- Two values with a fixed text between them. -/
def both (c : Codec α) (text : List UInt8) (d : Codec β)
    (h : Ends text ∧ text ≠ [] := by decide +kernel) : Codec (α × β) where
  write p := c.write p.1 ++ (text ++ d.write p.2)
  read s := (c.read s).bind fun (a, s) => (strip text s).bind fun s =>
    (d.read s).map fun (b, s) => ((a, b), s)
  read_write p rest hrest := by
    rw [List.append_assoc, c.read_write _ _ (by rw [List.append_assoc]; exact h.1.append h.2 _)]
    rw [Option.bind_some, List.append_assoc]
    dsimp only
    rw [strip_append, Option.bind_some, d.read_write _ _ hrest]
    rfl

/-- A value, then a fixed text. -/
def before (c : Codec α) (text : List UInt8) (h : Ends text ∧ text ≠ [] := by decide +kernel) :
    Codec α where
  write a := c.write a ++ text
  read s := (c.read s).bind fun (a, s) => (strip text s).map fun s => (a, s)
  read_write a rest _ := by
    rw [List.append_assoc, c.read_write _ _ (h.1.append h.2 _), Option.bind_some]
    dsimp only
    rw [strip_append]
    rfl

/-- A value written as another one that determines it. -/
def via (c : Codec α) (into : β → α) (back : α → Option β) (h : ∀ b, back (into b) = some b) :
    Codec β where
  write b := c.write (into b)
  read s := (c.read s).bind fun (a, s) => (back a).map fun b => (b, s)
  read_write b rest hrest := by
    rw [c.read_write _ _ hrest, Option.bind_some]
    dsimp only
    rw [h]
    rfl

/-- A text that does not start as the format does is not read. -/
theorem read_after_eq_none {text other : List UInt8} (h : ¬ text <+: other ∧ ¬ other <+: text)
    (c : Codec α) (s : List UInt8) : (c.after text).read (other ++ s) = none := by
  have hnone : strip text (other ++ s) = none := by
    unfold strip
    refine if_neg fun hp => ?_
    have hp := List.isPrefixOf_iff_prefix.mp hp
    rcases List.prefix_or_prefix_of_prefix hp (List.prefix_append other s) with hp | hp
    · exact h.1 hp
    · exact h.2 hp
  show (strip text (other ++ s)).bind c.read = none
  rw [hnone, Option.bind_none]

/-- One of two formats; the first does not read what the second writes. -/
def either (c : Codec α) (d : Codec β) (h : ∀ b s, c.read (d.write b ++ s) = none) :
    Codec (α ⊕ β) where
  write
    | .inl a => c.write a
    | .inr b => d.write b
  read s :=
    match c.read s with
    | some (a, s) => some (.inl a, s)
    | none => (d.read s).map fun (b, s) => (.inr b, s)
  read_write v rest hrest := by
    cases v with
    | inl a =>
      dsimp only
      rw [c.read_write _ _ hrest]
    | inr b =>
      dsimp only
      rw [h]
      dsimp only
      rw [d.read_write _ _ hrest]
      rfl

/-- A format with one text for each value. -/
def word (text : α → List UInt8) (values : List α) (hall : ∀ a, a ∈ values)
    (hfree : ∀ a b, text a <+: text b → a = b) : Codec α where
  write := text
  read s := values.findSome? fun a => (strip (text a) s).map fun s => (a, s)
  read_write a rest _ := by
    have hother : ∀ b, b ≠ a → strip (text b) (text a ++ rest) = none := by
      intro b hne
      unfold strip
      refine if_neg fun hp => hne ?_
      have hp := List.isPrefixOf_iff_prefix.mp hp
      rcases List.prefix_or_prefix_of_prefix hp (List.prefix_append (text a) rest) with hp | hp
      · exact hfree b a hp
      · exact (hfree a b hp).symm
    have hfind : ∀ l : List α, a ∈ l →
        l.findSome? (fun b => (strip (text b) (text a ++ rest)).map fun s => (b, s)) =
          some (a, rest) := by
      intro l
      induction l with
      | nil => intro h; cases h
      | cons b l ih =>
        intro hmem
        by_cases hb : b = a
        · subst hb
          rw [List.findSome?_cons, strip_append]
          rfl
        · rw [List.findSome?_cons, hother b hb]
          rcases List.mem_cons.mp hmem with h | h
          · exact absurd h.symm hb
          · exact ih h
    exact hfind values (hall a)

/-! ## Numbers -/

/-- The decimal digits of a number. -/
def digits (n : Nat) : List UInt8 := (Nat.toDigits 10 n).map fun c => UInt8.ofNat c.toNat

/-- The number that decimal digits stand for. -/
def number (s : List UInt8) : Nat := s.foldl (fun n d => 10 * n + (d.toNat - 48)) 0

theorem toNat_of_isDigit {c : Char} (h : c.isDigit) :
    48 ≤ c.toNat ∧ c.toNat ≤ 57 := by
  rw [Char.isDigit_iff_toNat] at h
  exact h

theorem number_digits (n : Nat) : number (digits n) = n := by
  unfold number digits
  rw [List.foldl_map]
  have hstep : ∀ (l : List Char) (m : Nat), (∀ c ∈ l, c.isDigit) →
      l.foldl (fun n c => 10 * n + ((UInt8.ofNat c.toNat).toNat - 48)) m =
        Nat.ofDigitChars 10 l m := by
    intro l
    induction l with
    | nil => intro m _; rfl
    | cons c l ih =>
      intro m h
      have hc := toNat_of_isDigit (h c List.mem_cons_self)
      have hbyte : (UInt8.ofNat c.toNat).toNat = c.toNat :=
        UInt8.toNat_ofNat_of_lt' (show c.toNat < 2 ^ 8 by omega)
      rw [List.foldl_cons, Nat.ofDigitChars_cons, hbyte]
      exact ih _ fun d hd => h d (List.mem_cons_of_mem c hd)
  rw [hstep _ _ fun c hc => Nat.isDigit_of_mem_toDigits (by decide) (by decide) hc]
  exact Nat.ofDigitChars_ten_toDigits

theorem digit_of_mem_digits {n : Nat} {b : UInt8} (h : b ∈ digits n) : 48 ≤ b ∧ b ≤ 57 := by
  obtain ⟨c, hc, rfl⟩ := List.mem_map.mp h
  have hc := toNat_of_isDigit (Nat.isDigit_of_mem_toDigits (by decide) (by decide) hc)
  have hbyte : (UInt8.ofNat c.toNat).toNat = c.toNat :=
    UInt8.toNat_ofNat_of_lt' (show c.toNat < 2 ^ 8 by omega)
  rw [UInt8.le_iff_toNat_le, UInt8.le_iff_toNat_le, hbyte]
  exact hc

theorem digits_ne_nil (n : Nat) : digits n ≠ [] := by
  intro h
  exact Nat.toDigits_ne_nil (List.map_eq_nil_iff.mp h)

/-- The digits of a number are taken off a text that goes on with something else. -/
theorem takeWhile_digits (n : Nat) {rest : List UInt8} (h : Ends rest) :
    (digits n ++ rest).takeWhile (fun b => 48 ≤ b ∧ b ≤ 57) = digits n := by
  rw [List.takeWhile_append_of_pos fun b hb => decide_eq_true (digit_of_mem_digits hb)]
  have hrest : rest.takeWhile (fun b => decide (48 ≤ b ∧ b ≤ 57)) = [] := by
    cases rest with
    | nil => rfl
    | cons b rest => exact List.takeWhile_cons_of_neg (by simpa using h b rfl)
  rw [hrest, List.append_nil]

/-- A number in decimal. -/
def nat : Codec Nat where
  write := digits
  read s :=
    let ds := s.takeWhile fun b => 48 ≤ b ∧ b ≤ 57
    if ds = digits (number ds) then some (number ds, s.drop ds.length) else none
  read_write n rest h := by
    simp only [takeWhile_digits n h, number_digits, if_true, List.drop_left]

/-- A number below a bound. -/
def below (bound : Nat) (into : β → Nat) (back : Nat → β)
    (h : ∀ b, into b < bound ∧ back (into b) = b) : Codec β :=
  nat.via into (fun n => if n < bound then some (back n) else none) fun b => by
    rw [if_pos (h b).1, (h b).2]

/-! ## Hexadecimal text -/

def hex_digit (n : Nat) : UInt8 := UInt8.ofNat (if n < 10 then 48 + n else 87 + n)

def hex_value (b : UInt8) : Option Nat :=
  if 48 ≤ b ∧ b ≤ 57 then some (b.toNat - 48)
  else if 97 ≤ b ∧ b ≤ 102 then some (b.toNat - 87)
  else none

theorem hex_value_hex_digit {n : Nat} (h : n < 16) : hex_value (hex_digit n) = some n := by
  decide +revert

/-- Two digits for each byte. -/
def write_hex : List UInt8 → List UInt8
  | [] => []
  | b :: s => hex_digit (b.toNat / 16) :: hex_digit (b.toNat % 16) :: write_hex s

def read_hex : Nat → List UInt8 → Option (List UInt8 × List UInt8)
  | 0, s => some ([], s)
  | n + 1, h :: l :: s =>
    (hex_value h).bind fun h => (hex_value l).bind fun l =>
      (read_hex n s).map fun (bytes, s) => (UInt8.ofNat (16 * h + l) :: bytes, s)
  | _ + 1, _ => none

theorem read_hex_write_hex (bytes rest : List UInt8) :
    read_hex bytes.length (write_hex bytes ++ rest) = some (bytes, rest) := by
  induction bytes with
  | nil => rfl
  | cons b bytes ih =>
    have hb := b.toNat_lt
    have hbyte : UInt8.ofNat (16 * (b.toNat / 16) + b.toNat % 16) = b := by
      rw [Nat.div_add_mod, UInt8.ofNat_toNat]
    rw [write_hex, List.cons_append, List.cons_append, List.length_cons, read_hex,
      hex_value_hex_digit (by omega), Option.bind_some, hex_value_hex_digit (by omega),
      Option.bind_some, ih, Option.map_some, hbyte]

/-- Bytes of a fixed number, as hexadecimal text. -/
def hex (n : Nat) : Codec (Vector UInt8 n) where
  write v := write_hex v.toList
  read s := (read_hex n s).bind fun (bytes, s) =>
    if h : bytes.toArray.size = n then some (⟨bytes.toArray, h⟩, s) else none
  read_write v rest _ := by
    have hread := read_hex_write_hex v.toList rest
    rw [Vector.length_toList] at hread
    rw [hread, Option.bind_some]
    dsimp only
    rw [dif_pos (by rw [List.size_toArray, Vector.length_toList])]
    rfl

/-! ## Sequences -/

/-- What follows an item of a sequence: a comma and the next item, or the closing sign. -/
def write_rest (close : UInt8) (c : Codec α) : List α → List UInt8
  | [] => [close]
  | a :: items => 44 :: (c.write a ++ write_rest close c items)

def read_rest (close : UInt8) (c : Codec α) : Nat → List UInt8 → Option (List α × List UInt8)
  | 0, _ => none
  | _ + 1, [] => none
  | fuel + 1, b :: s =>
    if b = close then some ([], s)
    else if b = 44 then
      (c.read s).bind fun (a, s) => (read_rest close c fuel s).map fun (items, s) => (a :: items, s)
    else none

theorem write_rest_ends {close : UInt8} (hclose : Ends [close]) (c : Codec α) (items : List α)
    (rest : List UInt8) : Ends (write_rest close c items ++ rest) := by
  cases items with
  | nil => exact hclose
  | cons a items =>
    intro b hb
    cases hb
    decide

theorem length_write_rest (close : UInt8) (c : Codec α) (items : List α) :
    items.length < (write_rest close c items).length := by
  induction items with
  | nil => exact Nat.zero_lt_one
  | cons a items ih =>
    simp only [write_rest, List.length_cons, List.length_append]
    omega

theorem read_rest_write_rest {close : UInt8} (hclose : Ends [close] ∧ close ≠ 44) (c : Codec α)
    (items : List α) (rest : List UInt8) (fuel : Nat) (hfuel : items.length < fuel) :
    read_rest close c fuel (write_rest close c items ++ rest) = some (items, rest) := by
  induction items generalizing fuel with
  | nil =>
    obtain ⟨fuel, rfl⟩ := Nat.exists_eq_add_of_lt hfuel
    simp [write_rest, read_rest]
  | cons a items ih =>
    obtain ⟨fuel, rfl⟩ : ∃ n, fuel = n + 1 := ⟨fuel - 1, by omega⟩
    rw [write_rest, List.cons_append, List.append_assoc, read_rest, if_neg (Ne.symm hclose.2),
      if_pos rfl, c.read_write _ _ (write_rest_ends hclose.1 c items rest), Option.bind_some]
    dsimp only
    rw [ih fuel (Nat.lt_of_succ_lt_succ hfuel)]
    rfl

/-- A sequence between two signs, its items separated by commas. No item starts with the
closing sign. -/
def sequence (left close : UInt8) (c : Codec α)
    (hstart : ∀ a s, c.write a ≠ close :: s ∧ c.write a ≠ [])
    (hclose : Ends [close] ∧ close ≠ 44 := by decide +kernel) : Codec (List α) where
  write
    | [] => [left, close]
    | a :: items => left :: (c.write a ++ write_rest close c items)
  read s := (strip [left] s).bind fun s =>
    match strip [close] s with
    | some s => some ([], s)
    | none => (c.read s).bind fun (a, s) =>
        (read_rest close c (s.length + 1) s).map fun (items, s) => (a :: items, s)
  read_write items rest _ := by
    cases items with
    | nil =>
      have hleft : strip [left] ([left, close] ++ rest) = some (close :: rest) :=
        strip_append [left] (close :: rest)
      have hempty : strip [close] (close :: rest) = some rest := strip_append [close] rest
      dsimp only
      rw [hleft, Option.bind_some, hempty]
    | cons a items =>
      have hleft : strip [left] (left :: (c.write a ++ write_rest close c items) ++ rest) =
          some (c.write a ++ (write_rest close c items ++ rest)) := by
        rw [List.cons_append, List.append_assoc]
        exact strip_append [left] _
      have hnone : strip [close] (c.write a ++ (write_rest close c items ++ rest)) = none := by
        cases hw : c.write a with
        | nil => exact absurd hw (hstart a []).2
        | cons b s =>
          have hne : close ≠ b := fun h => (hstart a s).1 (h ▸ hw)
          simp [strip, List.isPrefixOf, hne]
      dsimp only
      rw [hleft, Option.bind_some, hnone]
      dsimp only
      rw [c.read_write _ _ (write_rest_ends hclose.1 c items rest), Option.bind_some]
      dsimp only
      rw [read_rest_write_rest hclose]
      · rfl
      · have := length_write_rest close c items
        rw [List.length_append]
        omega

end Codec
