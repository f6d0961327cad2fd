-- JSON texts for people, as the pretty formatter of serde_json writes them: every item
-- and every field on a line of its own, with two blanks of indent for each level. The
-- reader skips the white space, so it reads these texts too.
import Pemrix.JsonForms

namespace Json

/-! ## Writing -/

/-- A new line with the indent of a level. -/
def new_line (depth : Nat) : List UInt8 := 10 :: List.replicate (2 * depth) 32

mutual

def write_pretty : Nat → Json → List UInt8
  | _, .null => write .null
  | _, .bool b => write (.bool b)
  | _, .number n => write (.number n)
  | _, .string s => write (.string s)
  | _, .array [] => write (.array [])
  | depth, .array (j :: js) =>
    91 :: (new_line (depth + 1) ++ (write_pretty (depth + 1) j ++ write_pretty_items depth js))
  | _, .object [] => write (.object [])
  | depth, .object ((k, j) :: fs) =>
    123 :: (new_line (depth + 1) ++ (write_string k ++
      58 :: 32 :: (write_pretty (depth + 1) j ++ write_pretty_fields depth fs)))

/-- The items after the first one, with the closing bracket. -/
def write_pretty_items : Nat → List Json → List UInt8
  | depth, [] => new_line depth ++ [93]
  | depth, j :: js =>
    44 :: (new_line (depth + 1) ++ (write_pretty (depth + 1) j ++ write_pretty_items depth js))

/-- The fields after the first one, with the closing brace. -/
def write_pretty_fields : Nat → List (String × Json) → List UInt8
  | depth, [] => new_line depth ++ [125]
  | depth, (k, j) :: fs =>
    44 :: (new_line (depth + 1) ++ (write_string k ++
      58 :: 32 :: (write_pretty (depth + 1) j ++ write_pretty_fields depth fs)))

end

/-! ## White space -/

theorem skip_space_append {spaces : List UInt8} (h : ∀ b ∈ spaces, is_space b) (s : List UInt8) :
    skip_space (spaces ++ s) = skip_space s := List.dropWhile_append_of_pos h

theorem new_line_spaces (depth : Nat) : ∀ b ∈ new_line depth, is_space b := by
  unfold new_line
  intro b hb
  rcases List.mem_cons.mp hb with rfl | hb
  · rfl
  · rw [List.eq_of_mem_replicate hb]
    rfl

theorem skip_space_new_line (depth : Nat) (s : List UInt8) :
    skip_space (new_line depth ++ s) = skip_space s := skip_space_append (new_line_spaces depth) s

theorem read_value_new_line (fuel depth : Nat) (s : List UInt8) :
    read_value fuel (new_line depth ++ s) = read_value fuel s := by
  cases fuel with
  | zero => rfl
  | succ fuel => rw [read_value, read_value, skip_space_new_line]

theorem read_value_blank (fuel : Nat) (s : List UInt8) :
    read_value fuel (32 :: s) = read_value fuel s := by
  cases fuel with
  | zero => rfl
  | succ fuel => rw [read_value, read_value, show skip_space (32 :: s) = skip_space s from rfl]

theorem read_field_new_line (fuel depth : Nat) (s : List UInt8) :
    read_field fuel (new_line depth ++ s) = read_field fuel s := by
  cases fuel with
  | zero => rfl
  | succ fuel => rw [read_field, read_field, skip_space_new_line]

/-! ## Values read back -/

/-- The text of a value starts like its compact text. -/
theorem write_pretty_starts (depth : Nat) (j : Json) :
    ∃ b s, write_pretty depth j = b :: s ∧ Starts b := by
  cases j with
  | null => exact write_starts .null
  | bool b => exact write_starts (.bool b)
  | number n => exact write_starts (.number n)
  | string s => exact write_starts (.string s)
  | array items =>
    cases items with
    | nil => exact write_starts (.array [])
    | cons j js => exact ⟨91, _, rfl, by decide, by decide, by decide⟩
  | object fields =>
    cases fields with
    | nil => exact write_starts (.object [])
    | cons f fs => exact ⟨123, _, rfl, by decide, by decide, by decide⟩

theorem follows_of_head {b : UInt8} (h : b = 10 ∨ b = 44) (s : List UInt8) : Follows (b :: s) where
  digits := by
    intro c hc
    cases hc
    rcases h with rfl | rfl <;> decide
  point := by
    intro c hc
    cases hc
    rcases h with rfl | rfl <;> decide

theorem write_pretty_items_follow (depth : Nat) (js : List Json) (rest : List UInt8) :
    Follows (write_pretty_items depth js ++ rest) := by
  cases js with
  | nil => exact follows_of_head (Or.inl rfl) _
  | cons j js => exact follows_of_head (Or.inr rfl) _

theorem write_pretty_fields_follow (depth : Nat) (fs : List (String × Json)) (rest : List UInt8) :
    Follows (write_pretty_fields depth fs ++ rest) := by
  cases fs with
  | nil => exact follows_of_head (Or.inl rfl) _
  | cons f fs => exact follows_of_head (Or.inr rfl) _

mutual

theorem read_value_pretty : ∀ (j : Json) (depth fuel : Nat) (rest : List UInt8),
    (write_pretty depth j).length < fuel → Follows rest →
      read_value fuel (write_pretty depth j ++ rest) = some (j, rest)
  | j, depth, 0, rest, hfuel, _ => absurd hfuel (Nat.not_lt_zero _)
  | .null, _, fuel + 1, rest, hfuel, hrest => read_value_write .null _ rest hfuel hrest
  | .bool b, _, fuel + 1, rest, hfuel, hrest => read_value_write (.bool b) _ rest hfuel hrest
  | .number n, _, fuel + 1, rest, hfuel, hrest => read_value_write (.number n) _ rest hfuel hrest
  | .string s, _, fuel + 1, rest, hfuel, hrest => read_value_write (.string s) _ rest hfuel hrest
  | .array [], _, fuel + 1, rest, hfuel, hrest => read_value_write (.array []) _ rest hfuel hrest
  | .array (j :: js), depth, fuel + 1, rest, hfuel, _ => by
    rw [write_pretty, List.length_cons, List.length_append, List.length_append] at hfuel
    obtain ⟨b, s, hs, hb⟩ := write_pretty_starts (depth + 1) j
    have hfirst := read_value_pretty j (depth + 1) fuel (write_pretty_items depth js ++ rest)
      (by omega) (write_pretty_items_follow depth js rest)
    have hitems := read_items_pretty js depth fuel rest (by omega)
    rw [write_pretty, List.cons_append, read_value, skip_space_cons (by decide)]
    dsimp only
    rw [if_neg (by decide), if_pos rfl, List.append_assoc, List.append_assoc, skip_space_new_line,
      read_value_new_line, hfirst, if_neg, Option.bind_some]
    · dsimp only
      rw [hitems]
      rfl
    · rw [hs, List.cons_append, skip_space_cons hb.space]
      exact fun h => hb.bracket (Option.some.inj h)
  | .object [], _, fuel + 1, rest, hfuel, hrest =>
    read_value_write (.object []) _ rest hfuel hrest
  | .object ((k, j) :: fs), depth, fuel + 1, rest, hfuel, _ => by
    rw [write_pretty, List.length_cons, List.length_append, List.length_append, List.length_cons,
      List.length_cons, List.length_append] at hfuel
    obtain ⟨fuel, rfl⟩ : ∃ n, fuel = n + 1 := ⟨fuel - 1, by omega⟩
    have hvalue := read_value_pretty j (depth + 1) fuel (write_pretty_fields depth fs ++ rest)
      (by omega) (write_pretty_fields_follow depth fs rest)
    have hfields := read_fields_pretty fs depth (fuel + 1) rest (by omega)
    rw [← read_value_blank] at hvalue
    rw [write_pretty, List.cons_append, read_value, skip_space_cons (by decide)]
    dsimp only
    rw [if_neg (by decide), if_neg (by decide), if_pos rfl, List.append_assoc, List.append_assoc,
      List.cons_append, List.cons_append, List.append_assoc, skip_space_new_line, if_neg,
      read_field_new_line, read_field_write k hvalue, Option.bind_some]
    · dsimp only
      rw [hfields]
      rfl
    · unfold write_string
      rw [List.cons_append, skip_space_cons (by decide)]
      exact fun h => absurd (Option.some.inj h) (by decide)

theorem read_items_pretty : ∀ (js : List Json) (depth fuel : Nat) (rest : List UInt8),
    (write_pretty_items depth js).length < fuel →
      read_items fuel (write_pretty_items depth js ++ rest) = some (js, rest)
  | js, depth, 0, rest, hfuel => absurd hfuel (Nat.not_lt_zero _)
  | [], depth, fuel + 1, rest, _ => by
    rw [write_pretty_items, List.append_assoc, read_items, skip_space_new_line, List.cons_append,
      skip_space_cons (by decide)]
    rfl
  | j :: js, depth, fuel + 1, rest, hfuel => by
    rw [write_pretty_items, List.length_cons, List.length_append, List.length_append] at hfuel
    have hfirst := read_value_pretty j (depth + 1) fuel (write_pretty_items depth js ++ rest)
      (by omega) (write_pretty_items_follow depth js rest)
    have hitems := read_items_pretty js depth fuel rest (by omega)
    rw [write_pretty_items, List.cons_append, read_items, skip_space_cons (by decide)]
    dsimp only
    rw [if_neg (by decide), if_pos rfl, List.append_assoc, List.append_assoc, read_value_new_line,
      hfirst, Option.bind_some]
    dsimp only
    rw [hitems]
    rfl

theorem read_fields_pretty : ∀ (fs : List (String × Json)) (depth fuel : Nat) (rest : List UInt8),
    (write_pretty_fields depth fs).length < fuel →
      read_fields fuel (write_pretty_fields depth fs ++ rest) = some (fs, rest)
  | fs, depth, 0, rest, hfuel => absurd hfuel (Nat.not_lt_zero _)
  | [], depth, fuel + 1, rest, _ => by
    rw [write_pretty_fields, List.append_assoc, read_fields, skip_space_new_line, List.cons_append,
      skip_space_cons (by decide)]
    rfl
  | (k, j) :: fs, depth, fuel + 1, rest, hfuel => by
    rw [write_pretty_fields, List.length_cons, List.length_append, List.length_append,
      List.length_cons, List.length_cons, List.length_append] at hfuel
    obtain ⟨fuel, rfl⟩ : ∃ n, fuel = n + 1 := ⟨fuel - 1, by omega⟩
    have hvalue := read_value_pretty j (depth + 1) fuel (write_pretty_fields depth fs ++ rest)
      (by omega) (write_pretty_fields_follow depth fs rest)
    have hfields := read_fields_pretty fs depth (fuel + 1) rest (by omega)
    rw [← read_value_blank] at hvalue
    rw [write_pretty_fields, List.cons_append, read_fields, skip_space_cons (by decide)]
    dsimp only
    rw [if_neg (by decide), if_pos rfl, List.append_assoc, List.append_assoc, List.cons_append,
      List.cons_append, List.append_assoc, read_field_new_line, read_field_write k hvalue,
      Option.bind_some]
    dsimp only
    rw [hfields]
    rfl

end

/-- A text for people reads back. -/
theorem read_write_pretty (j : Json) : read (write_pretty 0 j) = some j := by
  have hvalue := read_value_pretty j 0 ((write_pretty 0 j).length + 1) [] (Nat.lt_succ_self _)
    closes_nil.follows
  rw [List.append_nil] at hvalue
  unfold read
  rw [hvalue, Option.bind_some]
  rfl

end Json

namespace JsonForm

variable {α : Type}

/-- The text of a value, for people. -/
def to_string_pretty (f : JsonForm α) (a : α) : List UInt8 := (f.to_json a).write_pretty 0

theorem from_slice_to_string_pretty (f : JsonForm α) (a : α) :
    f.from_slice (f.to_string_pretty a) = some a := by
  unfold from_slice to_string_pretty
  rw [Json.read_write_pretty, Option.bind_some, f.from_to]

end JsonForm
