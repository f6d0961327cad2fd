-- JSON texts. A value is written as compact text, and the reader takes any JSON
-- text with natural numbers: white space between the signs, escapes in strings,
-- one value and nothing after it. It reads back every value that is written.
import Pemrix.Codec

inductive Json where
  | null
  | bool (b : Bool)
  | number (n : Nat)
  | string (s : String)
  | array (items : List Json)
  | object (fields : List (String × Json))

namespace Json

/-! ## Writing -/

/-- The UTF-8 bytes of a text. -/
def utf8 (s : String) : List UInt8 := s.toByteArray.data.toList

/-- A byte of a string: quotes, backslashes and control characters are escaped. -/
def escape (b : UInt8) : List UInt8 :=
  if b = 34 ∨ b = 92 then [92, b]
  else if b = 8 then [92, 98]
  else if b = 9 then [92, 116]
  else if b = 10 then [92, 110]
  else if b = 12 then [92, 102]
  else if b = 13 then [92, 114]
  else if b < 32 then
    [92, 117, 48, 48, Codec.hex_digit (b.toNat / 16), Codec.hex_digit (b.toNat % 16)]
  else [b]

def write_string (s : String) : List UInt8 := 34 :: ((utf8 s).flatMap escape ++ [34])

mutual

def write : Json → List UInt8
  | .null => utf8 "null"
  | .bool true => utf8 "true"
  | .bool false => utf8 "false"
  | .number n => Codec.digits n
  | .string s => write_string s
  | .array [] => [91, 93]
  | .array (j :: js) => 91 :: (write j ++ write_items js)
  | .object [] => [123, 125]
  | .object ((k, j) :: fs) => 123 :: (write_string k ++ 58 :: (write j ++ write_fields fs))

/-- The items after the first one, with the closing bracket. -/
def write_items : List Json → List UInt8
  | [] => [93]
  | j :: js => 44 :: (write j ++ write_items js)

/-- The fields after the first one, with the closing brace. -/
def write_fields : List (String × Json) → List UInt8
  | [] => [125]
  | (k, j) :: fs => 44 :: (write_string k ++ 58 :: (write j ++ write_fields fs))

end

/-! ## Reading -/

def is_space (b : UInt8) : Bool := b = 32 || b = 9 || b = 10 || b = 13

def skip_space (s : List UInt8) : List UInt8 := s.dropWhile is_space

/-- What a backslash and one sign stand for. -/
def unescape (b : UInt8) : Option UInt8 :=
  if b = 34 ∨ b = 92 ∨ b = 47 then some b
  else if b = 98 then some 8
  else if b = 116 then some 9
  else if b = 110 then some 10
  else if b = 102 then some 12
  else if b = 114 then some 13
  else none

/-- A hexadecimal digit in either case. -/
def hex_value (b : UInt8) : Option Nat :=
  if 65 ≤ b ∧ b ≤ 70 then some (b.toNat - 55) else Codec.hex_value b

/-- The UTF-8 bytes of a character given by four digits. Half of a surrogate pair is refused. -/
def unicode (a b c d : UInt8) : Option (List UInt8) := do
  let n := 16 * (16 * (16 * (← hex_value a) + (← hex_value b)) + (← hex_value c)) + (← hex_value d)
  if 0xD800 ≤ n ∧ n ≤ 0xDFFF then none else some (utf8 (String.singleton (Char.ofNat n)))

/-- The bytes of a string up to its closing quote, and what comes after it. -/
def read_bytes : List UInt8 → Option (List UInt8 × List UInt8)
  | [] => none
  | b :: s =>
    if b = 34 then some ([], s)
    else if b = 92 then
      match s with
      | 117 :: w :: x :: y :: z :: s =>
        (unicode w x y z).bind fun bytes => (read_bytes s).map fun (t, s) => (bytes ++ t, s)
      | e :: s => (unescape e).bind fun byte => (read_bytes s).map fun (t, s) => (byte :: t, s)
      | [] => none
    else if b < 32 then none
    else (read_bytes s).map fun (t, s) => (b :: t, s)

/-- A string after its opening quote. -/
def read_string (s : List UInt8) : Option (String × List UInt8) :=
  (read_bytes s).bind fun (bytes, s) => (String.fromUTF8? ⟨bytes.toArray⟩).map fun t => (t, s)

/-- A natural number in decimal, with no fraction and no exponent after it. -/
def read_number (s : List UInt8) : Option (Nat × List UInt8) :=
  let ds := s.takeWhile fun b => 48 ≤ b ∧ b ≤ 57
  let rest := s.drop ds.length
  if ds = Codec.digits (Codec.number ds) ∧ ∀ b ∈ rest.head?, b ≠ 46 ∧ b ≠ 69 ∧ b ≠ 101 then
    some (Codec.number ds, rest)
  else none

/-- A value that is no string, array or object. -/
def read_scalar (s : List UInt8) : Option (Json × List UInt8) :=
  match Codec.strip (utf8 "null") s with
  | some s => some (.null, s)
  | none =>
    match Codec.strip (utf8 "true") s with
    | some s => some (.bool true, s)
    | none =>
      match Codec.strip (utf8 "false") s with
      | some s => some (.bool false, s)
      | none => (read_number s).map fun (n, s) => (.number n, s)

mutual

/-- A value at the front of a text. The depth is bounded by the fuel. -/
def read_value : Nat → List UInt8 → Option (Json × List UInt8)
  | 0, _ => none
  | fuel + 1, s =>
    match skip_space s with
    | [] => none
    | b :: s =>
      if b = 34 then (read_string s).map fun (t, s) => (.string t, s)
      else if b = 91 then
        if (skip_space s).head? = some 93 then some (.array [], (skip_space s).tail)
        else
          (read_value fuel s).bind fun (j, s) =>
            (read_items fuel s).map fun (js, s) => (.array (j :: js), s)
      else if b = 123 then
        if (skip_space s).head? = some 125 then some (.object [], (skip_space s).tail)
        else
          (read_field fuel s).bind fun (f, s) =>
            (read_fields fuel s).map fun (fs, s) => (.object (f :: fs), s)
      else read_scalar (b :: s)

/-- A comma and the next item, or the closing bracket. -/
def read_items : Nat → List UInt8 → Option (List Json × List UInt8)
  | 0, _ => none
  | fuel + 1, s =>
    match skip_space s with
    | [] => none
    | b :: s =>
      if b = 93 then some ([], s)
      else if b = 44 then
        (read_value fuel s).bind fun (j, s) => (read_items fuel s).map fun (js, s) => (j :: js, s)
      else none

/-- A key, a colon and a value. -/
def read_field : Nat → List UInt8 → Option ((String × Json) × List UInt8)
  | 0, _ => none
  | fuel + 1, s =>
    match skip_space s with
    | [] => none
    | b :: s =>
      if b = 34 then
        (read_string s).bind fun (k, s) =>
          match skip_space s with
          | [] => none
          | c :: s =>
            if c = 58 then (read_value fuel s).map fun (j, s) => ((k, j), s)
            else none
      else none

/-- A comma and the next field, or the closing brace. -/
def read_fields : Nat → List UInt8 → Option (List (String × Json) × List UInt8)
  | 0, _ => none
  | fuel + 1, s =>
    match skip_space s with
    | [] => none
    | b :: s =>
      if b = 125 then some ([], s)
      else if b = 44 then
        (read_field fuel s).bind fun (f, s) => (read_fields fuel s).map fun (fs, s) => (f :: fs, s)
      else none

end

/-- One value, with white space around it. -/
def read (s : List UInt8) : Option Json :=
  (read_value (s.length + 1) s).bind fun (j, s) => if skip_space s = [] then some j else none

/-! ## Strings read back -/

theorem fromUTF8_utf8 (s : String) : String.fromUTF8? ⟨(utf8 s).toArray⟩ = some s := by
  have hbytes : (⟨(utf8 s).toArray⟩ : ByteArray) = s.toByteArray := by
    unfold utf8
    rw [Array.toArray_toList]
  rw [hbytes]
  unfold String.fromUTF8?
  rw [dif_pos s.isValidUTF8]
  rfl

/-- A control character comes back from its four digits. -/
theorem unicode_control (b : UInt8) (h : b < 32) :
    unicode 48 48 (Codec.hex_digit (b.toNat / 16)) (Codec.hex_digit (b.toNat % 16)) = some [b] := by
  decide +kernel +revert

theorem read_bytes_escape (b : UInt8) (s : List UInt8) :
    read_bytes (escape b ++ s) = (read_bytes s).map fun (t, rest) => (b :: t, rest) := by
  unfold escape
  split
  · rename_i h
    rcases h with rfl | rfl
    · rfl
    · rfl
  · rename_i hplain
    obtain ⟨hquote, hslash⟩ := not_or.mp hplain
    split
    · rename_i h; subst h; rfl
    split
    · rename_i h; subst h; rfl
    split
    · rename_i h; subst h; rfl
    split
    · rename_i h; subst h; rfl
    split
    · rename_i h; subst h; rfl
    split
    · rename_i h
      show (unicode 48 48 _ _).bind _ = _
      rw [unicode_control b h]
      rfl
    · rename_i h
      show read_bytes (b :: s) = _
      conv_lhs => unfold read_bytes
      rw [if_neg hquote, if_neg hslash, if_neg h]

theorem read_bytes_flatMap (bytes rest : List UInt8) :
    read_bytes (bytes.flatMap escape ++ 34 :: rest) = some (bytes, rest) := by
  induction bytes with
  | nil =>
    rw [List.flatMap_nil, List.nil_append]
    unfold read_bytes
    rw [if_pos rfl]
  | cons b bytes ih =>
    rw [List.flatMap_cons, List.append_assoc, read_bytes_escape, ih]
    rfl

theorem read_string_write (s : String) (rest : List UInt8) :
    read_string ((utf8 s).flatMap escape ++ 34 :: rest) = some (s, rest) := by
  unfold read_string
  rw [read_bytes_flatMap, Option.bind_some]
  dsimp only
  rw [fromUTF8_utf8]
  rfl

/-! ## Values read back -/

/-- What may come after a value: a comma or a closing sign, or nothing. -/
def Closes (rest : List UInt8) : Prop := ∀ b ∈ rest.head?, b = 44 ∨ b = 93 ∨ b = 125

theorem closes_nil : Closes [] := by
  intro b hb
  cases hb

theorem write_items_closes (js : List Json) (rest : List UInt8) :
    Closes (write_items js ++ rest) := by
  intro b hb
  cases js with
  | nil => cases hb; decide
  | cons j js => cases hb; decide

theorem write_fields_closes (fs : List (String × Json)) (rest : List UInt8) :
    Closes (write_fields fs ++ rest) := by
  intro b hb
  cases fs with
  | nil => cases hb; decide
  | cons f fs => cases hb; decide

/-- With what comes after it, a number is at its end. -/
structure Follows (rest : List UInt8) : Prop where
  digits : Codec.Ends rest
  point : ∀ b ∈ rest.head?, b ≠ 46 ∧ b ≠ 69 ∧ b ≠ 101

theorem Closes.follows {rest : List UInt8} (h : Closes rest) : Follows rest where
  digits := by
    intro b hb
    rcases h b hb with rfl | rfl | rfl <;> decide
  point := by
    intro b hb
    rcases h b hb with rfl | rfl | rfl <;> decide

theorem read_number_write (n : Nat) {rest : List UInt8} (h : Follows rest) :
    read_number (Codec.digits n ++ rest) = some (n, rest) := by
  have htake := Codec.takeWhile_digits n h.digits
  unfold read_number
  simp only [htake, Codec.number_digits, List.drop_left]
  rw [if_pos ⟨trivial, h.point⟩]

/-- A written value starts with none of the signs that the reader looks for first. -/
structure Starts (b : UInt8) : Prop where
  space : is_space b = false
  bracket : b ≠ 93
  brace : b ≠ 125

theorem digit_starts {b : UInt8} (h : 48 ≤ b ∧ b ≤ 57) : Starts b ∧ b ≠ 34 ∧ b ≠ 91 ∧ b ≠ 123 := by
  have hall : ∀ b : UInt8, 48 ≤ b ∧ b ≤ 57 → is_space b = false ∧ b ≠ 93 ∧ b ≠ 125 ∧
      b ≠ 34 ∧ b ≠ 91 ∧ b ≠ 123 := by decide +kernel
  obtain ⟨h1, h2, h3, h4⟩ := hall b h
  exact ⟨⟨h1, h2, h3⟩, h4⟩

theorem write_starts (j : Json) : ∃ b s, write j = b :: s ∧ Starts b := by
  cases j with
  | null => exact ⟨110, _, rfl, by decide, by decide, by decide⟩
  | bool b =>
    cases b with
    | true => exact ⟨116, _, rfl, by decide, by decide, by decide⟩
    | false => exact ⟨102, _, rfl, by decide, by decide, by decide⟩
  | number n =>
    rw [write]
    rcases hn : Codec.digits n with _ | ⟨b, s⟩
    · exact absurd hn (Codec.digits_ne_nil n)
    · exact ⟨b, s, rfl, (digit_starts (Codec.digit_of_mem_digits (hn ▸ List.mem_cons_self))).1⟩
  | string s =>
    rw [write]
    exact ⟨34, _, rfl, by decide, by decide, by decide⟩
  | array items =>
    cases items with
    | nil => exact ⟨91, _, rfl, by decide, by decide, by decide⟩
    | cons j js => exact ⟨91, _, rfl, by decide, by decide, by decide⟩
  | object fields =>
    cases fields with
    | nil => exact ⟨123, _, rfl, by decide, by decide, by decide⟩
    | cons f fs => exact ⟨123, _, rfl, by decide, by decide, by decide⟩

theorem skip_space_cons {b : UInt8} (h : is_space b = false) (s : List UInt8) :
    skip_space (b :: s) = b :: s := by
  unfold skip_space
  rw [List.dropWhile_cons_of_neg (by simp [h])]

theorem read_scalar_write (fuel : Nat) {b : UInt8} {s : List UInt8} (hspace : is_space b = false)
    (h : b ≠ 34 ∧ b ≠ 91 ∧ b ≠ 123) : read_value (fuel + 1) (b :: s) = read_scalar (b :: s) := by
  rw [read_value, skip_space_cons hspace]
  dsimp only
  rw [if_neg h.1, if_neg h.2.1, if_neg h.2.2]

theorem read_scalar_digits (n : Nat) {rest : List UInt8} (h : Follows rest) :
    read_scalar (Codec.digits n ++ rest) = some (.number n, rest) := by
  have hword : ∀ (c : UInt8) (word : List UInt8), ¬ (48 ≤ c ∧ c ≤ 57) →
      Codec.strip (c :: word) (Codec.digits n ++ rest) = none := by
    intro c word hc
    rcases hn : Codec.digits n with _ | ⟨b, s⟩
    · exact absurd hn (Codec.digits_ne_nil n)
    · have hb := Codec.digit_of_mem_digits (n := n) (hn ▸ List.mem_cons_self)
      have hne : c ≠ b := by
        rintro rfl
        exact hc hb
      simp [Codec.strip, List.isPrefixOf, hne]
  unfold read_scalar
  rw [show utf8 "null" = [110, 117, 108, 108] from rfl, hword 110 _ (by decide)]
  dsimp only
  rw [show utf8 "true" = [116, 114, 117, 101] from rfl, hword 116 _ (by decide)]
  dsimp only
  rw [show utf8 "false" = [102, 97, 108, 115, 101] from rfl, hword 102 _ (by decide)]
  dsimp only
  rw [read_number_write n h]
  rfl

/-- A field is read if its value is. -/
theorem read_field_write {fuel : Nat} (k : String) {j : Json} {s rest : List UInt8}
    (h : read_value fuel s = some (j, rest)) :
    read_field (fuel + 1) (write_string k ++ 58 :: s) = some ((k, j), rest) := by
  unfold write_string
  rw [List.cons_append, read_field, skip_space_cons (by decide)]
  dsimp only
  rw [if_pos rfl, List.append_assoc, List.cons_append, List.nil_append, read_string_write,
    Option.bind_some]
  dsimp only
  rw [skip_space_cons (by decide)]
  dsimp only
  rw [if_pos rfl, h]
  rfl

mutual

theorem read_value_write : ∀ (j : Json) (fuel : Nat) (rest : List UInt8),
    (write j).length < fuel → Follows rest → read_value fuel (write j ++ rest) = some (j, rest)
  | j, 0, rest, hfuel, _ => absurd hfuel (Nat.not_lt_zero _)
  | .null, fuel + 1, rest, _, _ =>
    read_scalar_write fuel (b := 110) (by decide) (by decide)
  | .bool true, fuel + 1, rest, _, _ =>
    read_scalar_write fuel (b := 116) (by decide) (by decide)
  | .bool false, fuel + 1, rest, _, _ =>
    read_scalar_write fuel (b := 102) (by decide) (by decide)
  | .number n, fuel + 1, rest, _, hrest => by
    have hscalar := read_scalar_digits n hrest
    rw [write]
    rcases hn : Codec.digits n with _ | ⟨b, s⟩
    · exact absurd hn (Codec.digits_ne_nil n)
    · have hb := Codec.digit_of_mem_digits (n := n) (hn ▸ List.mem_cons_self)
      obtain ⟨hstarts, hsigns⟩ := digit_starts hb
      rw [List.cons_append, read_scalar_write fuel hstarts.space hsigns, ← List.cons_append, ← hn,
        hscalar]
  | .string s, fuel + 1, rest, _, _ => by
    rw [write, write_string, List.cons_append, read_value, skip_space_cons (by decide)]
    dsimp only
    rw [if_pos rfl, List.append_assoc, List.cons_append, List.nil_append, read_string_write]
    rfl
  | .array [], fuel + 1, rest, _, _ => by
    rw [write, List.cons_append, read_value, skip_space_cons (by decide)]
    rfl
  | .array (j :: js), fuel + 1, rest, hfuel, hrest => by
    rw [write, List.length_cons, List.length_append] at hfuel
    obtain ⟨b, s, hs, hb⟩ := write_starts j
    have hfirst := read_value_write j fuel (write_items js ++ rest) (by omega)
      (write_items_closes js rest).follows
    have hitems := read_items_write js fuel rest (by omega)
    rw [write, List.cons_append, read_value, skip_space_cons (by decide)]
    dsimp only
    rw [if_neg (by decide), if_pos rfl, List.append_assoc, hfirst, if_neg, Option.bind_some]
    · dsimp only
      rw [hitems]
      rfl
    · rw [hs, List.cons_append, skip_space_cons hb.space]
      exact fun h => hb.bracket (Option.some.inj h)
  | .object [], fuel + 1, rest, _, _ => by
    rw [write, List.cons_append, read_value, skip_space_cons (by decide)]
    rfl
  | .object ((k, j) :: fs), fuel + 1, rest, hfuel, hrest => by
    rw [write, List.length_cons, List.length_append, List.length_cons, List.length_append] at hfuel
    have hkey : (write_string k).length ≥ 1 := by
      unfold write_string
      rw [List.length_cons]
      omega
    obtain ⟨fuel, rfl⟩ : ∃ n, fuel = n + 1 := ⟨fuel - 1, by omega⟩
    have hvalue := read_value_write j fuel (write_fields fs ++ rest) (by omega)
      (write_fields_closes fs rest).follows
    have hfields := read_fields_write fs (fuel + 1) rest (by omega)
    rw [write, List.cons_append, read_value, skip_space_cons (by decide)]
    dsimp only
    rw [if_neg (by decide), if_neg (by decide), if_pos rfl, List.append_assoc, List.cons_append,
      List.append_assoc, if_neg, read_field_write k hvalue, Option.bind_some]
    · dsimp only
      rw [hfields]
      rfl
    · unfold write_string
      rw [List.cons_append, skip_space_cons (by decide)]
      exact fun h => absurd (Option.some.inj h) (by decide)

theorem read_items_write : ∀ (js : List Json) (fuel : Nat) (rest : List UInt8),
    (write_items js).length < fuel → read_items fuel (write_items js ++ rest) = some (js, rest)
  | js, 0, rest, hfuel => absurd hfuel (Nat.not_lt_zero _)
  | [], fuel + 1, rest, _ => by
    rw [write_items, List.cons_append, read_items, skip_space_cons (by decide)]
    rfl
  | j :: js, fuel + 1, rest, hfuel => by
    rw [write_items, List.length_cons, List.length_append] at hfuel
    have hfirst := read_value_write j fuel (write_items js ++ rest) (by omega)
      (write_items_closes js rest).follows
    have hitems := read_items_write js fuel rest (by omega)
    rw [write_items, List.cons_append, read_items, skip_space_cons (by decide)]
    dsimp only
    rw [if_neg (by decide), if_pos rfl, List.append_assoc, hfirst, Option.bind_some]
    dsimp only
    rw [hitems]
    rfl

theorem read_fields_write : ∀ (fs : List (String × Json)) (fuel : Nat) (rest : List UInt8),
    (write_fields fs).length < fuel → read_fields fuel (write_fields fs ++ rest) = some (fs, rest)
  | fs, 0, rest, hfuel => absurd hfuel (Nat.not_lt_zero _)
  | [], fuel + 1, rest, _ => by
    rw [write_fields, List.cons_append, read_fields, skip_space_cons (by decide)]
    rfl
  | (k, j) :: fs, fuel + 1, rest, hfuel => by
    rw [write_fields, List.length_cons, List.length_append, List.length_cons,
      List.length_append] at hfuel
    have hkey : (write_string k).length ≥ 1 := by
      unfold write_string
      rw [List.length_cons]
      omega
    obtain ⟨fuel, rfl⟩ : ∃ n, fuel = n + 1 := ⟨fuel - 1, by omega⟩
    have hvalue := read_value_write j fuel (write_fields fs ++ rest) (by omega)
      (write_fields_closes fs rest).follows
    have hfields := read_fields_write fs (fuel + 1) rest (by omega)
    rw [write_fields, List.cons_append, read_fields, skip_space_cons (by decide)]
    dsimp only
    rw [if_neg (by decide), if_pos rfl, List.append_assoc, List.cons_append, List.append_assoc,
      read_field_write k hvalue, Option.bind_some]
    dsimp only
    rw [hfields]
    rfl

end

theorem read_write (j : Json) : read (write j) = some j := by
  have hvalue := read_value_write j ((write j).length + 1) [] (Nat.lt_succ_self _)
    closes_nil.follows
  rw [List.append_nil] at hvalue
  unfold read
  rw [hvalue]
  rfl

theorem write_inj {i j : Json} (h : write i = write j) : i = j := by
  have hi := read_write i
  rw [h, read_write] at hi
  exact (Option.some.inj hi).symm

/-! ## The bytes of a text -/

/-- No control character. -/
def Printable (s : List UInt8) : Prop := ∀ b ∈ s, 32 ≤ b

theorem printable_of_all {s : List UInt8} (h : s.all (32 ≤ ·) = true) : Printable s := by
  intro b hb
  exact of_decide_eq_true (List.all_eq_true.mp h b hb)

theorem Printable.append {s t : List UInt8} (hs : Printable s) (ht : Printable t) :
    Printable (s ++ t) := by
  intro b hb
  rcases List.mem_append.mp hb with h | h
  · exact hs b h
  · exact ht b h

theorem Printable.cons {b : UInt8} {s : List UInt8} (hb : 32 ≤ b) (hs : Printable s) :
    Printable (b :: s) := by
  intro c hc
  rcases List.mem_cons.mp hc with rfl | h
  · exact hb
  · exact hs c h

theorem escape_printable (b : UInt8) : Printable (escape b) := by
  have hall : ∀ b : UInt8, (escape b).all (32 ≤ ·) = true := by decide +kernel
  exact printable_of_all (hall b)

theorem write_string_printable (s : String) : Printable (write_string s) := by
  refine .cons (by decide) (.append ?_ ?_)
  · intro c hc
    obtain ⟨b, -, hb⟩ := List.mem_flatMap.mp hc
    exact escape_printable b c hb
  · exact printable_of_all rfl

theorem digits_printable (n : Nat) : Printable (Codec.digits n) := by
  intro b hb
  exact UInt8.le_trans (by decide) (Codec.digit_of_mem_digits hb).1

mutual

theorem write_printable : ∀ j : Json, Printable (write j)
  | .null => by
    rw [write]
    exact printable_of_all rfl
  | .bool true => by
    rw [write]
    exact printable_of_all rfl
  | .bool false => by
    rw [write]
    exact printable_of_all rfl
  | .number n => by
    rw [write]
    exact digits_printable n
  | .string s => by
    rw [write]
    exact write_string_printable s
  | .array [] => by
    rw [write]
    exact printable_of_all rfl
  | .array (j :: js) => by
    rw [write]
    exact .cons (by decide) (.append (write_printable j) (write_items_printable js))
  | .object [] => by
    rw [write]
    exact printable_of_all rfl
  | .object ((k, j) :: fs) => by
    rw [write]
    exact .cons (by decide) (.append (write_string_printable k)
      (.cons (by decide) (.append (write_printable j) (write_fields_printable fs))))

theorem write_items_printable : ∀ js : List Json, Printable (write_items js)
  | [] => by
    rw [write_items]
    exact printable_of_all rfl
  | j :: js => by
    rw [write_items]
    exact .cons (by decide) (.append (write_printable j) (write_items_printable js))

theorem write_fields_printable : ∀ fs : List (String × Json), Printable (write_fields fs)
  | [] => by
    rw [write_fields]
    exact printable_of_all rfl
  | (k, j) :: fs => by
    rw [write_fields]
    exact .cons (by decide) (.append (write_string_printable k)
      (.cons (by decide) (.append (write_printable j) (write_fields_printable fs))))

end

/-- Every item takes its own bytes and one more. -/
theorem length_write_items {k : Nat} {js : List Json} (h : ∀ j ∈ js, k ≤ (write j).length) :
    (k + 1) * js.length < (write_items js).length := by
  induction js with
  | nil =>
    rw [write_items, List.length_nil, Nat.mul_zero]
    decide
  | cons j js ih =>
    obtain ⟨hj, hjs⟩ := List.forall_mem_cons.mp h
    have hitems := ih hjs
    rw [write_items, List.length_cons, List.length_cons, List.length_append, Nat.mul_succ]
    omega

theorem length_write_array {k : Nat} {js : List Json} (h : ∀ j ∈ js, k ≤ (write j).length) :
    (k + 1) * js.length < (write (.array js)).length := by
  cases js with
  | nil =>
    rw [write, List.length_nil, Nat.mul_zero]
    decide
  | cons j js =>
    obtain ⟨hj, hjs⟩ := List.forall_mem_cons.mp h
    have hitems := length_write_items hjs
    rw [write, List.length_cons, List.length_cons, List.length_append, Nat.mul_succ]
    omega

theorem length_le_write_fields {f : String × Json} {fs : List (String × Json)} (h : f ∈ fs) :
    (write f.2).length ≤ (write_fields fs).length := by
  induction fs with
  | nil => cases h
  | cons g fs ih =>
    obtain ⟨k, j⟩ := g
    rw [write_fields, List.length_cons, List.length_append, List.length_cons, List.length_append]
    rcases List.mem_cons.mp h with rfl | hmem
    · dsimp only
      omega
    · have := ih hmem
      omega

/-- An object is longer than each of its values. -/
theorem length_le_write_object {f : String × Json} {fs : List (String × Json)} (h : f ∈ fs) :
    (write f.2).length ≤ (write (.object fs)).length := by
  cases fs with
  | nil => cases h
  | cons g fs =>
    obtain ⟨k, j⟩ := g
    rw [write, List.length_cons, List.length_append, List.length_cons, List.length_append]
    rcases List.mem_cons.mp h with rfl | hmem
    · dsimp only
      omega
    · have := length_le_write_fields hmem
      omega

end Json
