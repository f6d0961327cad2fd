-- Values that are turned into a JSON value first, and not into a text at once. Such a
-- value keeps its numbers in 64 bits, so not every type fits into it.
import Pemrix.JsonForms

namespace Json

mutual

/-- All numbers are below `2^64`. -/
def small : Json → Bool
  | .number n => n < 2 ^ 64
  | .array items => small_items items
  | .object fields => small_fields fields
  | _ => true

def small_items : List Json → Bool
  | [] => true
  | j :: js => small j && small_items js

def small_fields : List (String × Json) → Bool
  | [] => true
  | (_, j) :: fs => small j && small_fields fs

end

theorem small_items_eq (js : List Json) : small_items js = js.all small := by
  induction js with
  | nil => rfl
  | cons j js ih => rw [small_items, ih, List.all_cons]

theorem small_fields_zip {names : List String} {js : List Json} (h : js.length = names.length) :
    small_fields (names.zip js) = js.all small := by
  induction names generalizing js with
  | nil =>
    rw [List.length_eq_zero_iff.mp h]
    rfl
  | cons name names ih =>
    cases js with
    | nil => cases h
    | cons j js => rw [List.zip_cons_cons, small_fields, ih (Nat.succ.inj h), List.all_cons]

/-! ## The length of a text -/

theorem length_utf8_le (s : String) : (utf8 s).length ≤ 4 * s.length := by
  have hbytes : utf8 s = s.toList.flatMap String.utf8EncodeChar := by
    unfold utf8
    rw [← String.utf8Encode_toList, List.utf8Encode, List.data_toByteArray]
  rw [hbytes, List.length_flatMap, ← String.length_toList, Nat.mul_comm]
  refine (List.sum_le_card_nsmul _ 4 ?_).trans_eq ?_
  · intro n hn
    obtain ⟨c, -, rfl⟩ := List.mem_map.mp hn
    rw [String.length_utf8EncodeChar]
    exact c.utf8Size_le_four
  · rw [List.length_map, smul_eq_mul]

theorem length_write_string_le (s : String) : (write_string s).length ≤ 24 * s.length + 2 := by
  have hescape : ∀ b : UInt8, (escape b).length ≤ 6 := by decide +kernel
  have hflat : ((utf8 s).flatMap escape).length ≤ 6 * (utf8 s).length := by
    rw [List.length_flatMap, Nat.mul_comm]
    refine (List.sum_le_card_nsmul _ 6 ?_).trans_eq ?_
    · intro n hn
      obtain ⟨b, -, rfl⟩ := List.mem_map.mp hn
      exact hescape b
    · rw [List.length_map, smul_eq_mul]
  have hutf8 := length_utf8_le s
  unfold write_string
  rw [List.length_cons, List.length_append, List.length_singleton]
  omega

theorem length_write_number_le {n k : Nat} (hk : 0 < k) (h : n < 10 ^ k) :
    (write (.number n)).length ≤ k := by
  rw [write, Codec.digits, List.length_map]
  exact (Nat.length_toDigits_le_iff (by decide) hk).mpr h

theorem length_write_array_le {k : Nat} {js : List Json} (h : ∀ j ∈ js, (write j).length ≤ k) :
    (write (.array js)).length ≤ (k + 1) * js.length + 2 := by
  have hitems : ∀ js : List Json, (∀ j ∈ js, (write j).length ≤ k) →
      (write_items js).length ≤ (k + 1) * js.length + 1 := by
    intro js h
    induction js with
    | nil =>
      rw [write_items]
      exact Nat.le_add_left 1 _
    | cons j js ih =>
      obtain ⟨hj, hjs⟩ := List.forall_mem_cons.mp h
      have := ih hjs
      rw [write_items, List.length_cons, List.length_append, List.length_cons, Nat.mul_succ]
      omega
  cases js with
  | nil =>
    rw [write]
    exact Nat.le_add_left 2 _
  | cons j js =>
    obtain ⟨hj, hjs⟩ := List.forall_mem_cons.mp h
    have := hitems js hjs
    rw [write, List.length_cons, List.length_append, List.length_cons, Nat.mul_succ]
    omega

theorem length_write_object_le {n k : Nat} {fs : List (String × Json)}
    (h : ∀ f ∈ fs, f.1.length ≤ n ∧ (write f.2).length ≤ k) :
    (write (.object fs)).length ≤ (24 * n + k + 4) * fs.length + 2 := by
  have hfields : ∀ fs : List (String × Json),
      (∀ f ∈ fs, f.1.length ≤ n ∧ (write f.2).length ≤ k) →
      (write_fields fs).length ≤ (24 * n + k + 4) * fs.length + 1 := by
    intro fs h
    induction fs with
    | nil =>
      rw [write_fields]
      exact Nat.le_add_left 1 _
    | cons f fs ih =>
      obtain ⟨⟨hkey, hvalue⟩, hfs⟩ := List.forall_mem_cons.mp h
      have := ih hfs
      have := length_write_string_le f.1
      rw [write_fields, List.length_cons, List.length_append, List.length_cons, List.length_append,
        List.length_cons, Nat.mul_succ]
      omega
  cases fs with
  | nil =>
    rw [write]
    exact Nat.le_add_left 2 _
  | cons f fs =>
    obtain ⟨⟨hkey, hvalue⟩, hfs⟩ := List.forall_mem_cons.mp h
    have := hfields fs hfs
    have := length_write_string_le f.1
    rw [write, List.length_cons, List.length_append, List.length_cons, List.length_append,
      List.length_cons, Nat.mul_succ]
    omega

end Json

namespace JsonForm

open Json

variable {α β : Type}

/-- The value of a value, if it has one (`serde_json::to_value`). -/
def to_value (f : JsonForm α) (a : α) : Option Json :=
  if (f.to_json a).small then some (f.to_json a) else none

/-- The value, with `null` for none (`to_value(..).unwrap_or_default()`). -/
def to_value_or_default (f : JsonForm α) (a : α) : Json := (f.to_value a).getD .null

/-- What is read back from a value is the value that it was made of, if it was made. -/
theorem from_to_value_or_default (f : JsonForm α) (hnull : f.from_json .null = none) (a : α) :
    f.from_json (f.to_value_or_default a) =
      if (f.to_json a).small then some a else none := by
  unfold to_value_or_default to_value
  split
  · exact f.from_to a
  · exact hnull

/-! ## Which values have one -/

@[simp] theorem small_text (into : β → String) (back : String → Option β)
    (h : ∀ b, back (into b) = some b) (b : β) : ((text into back h).to_json b).small = true := rfl

@[simp] theorem small_via (f : JsonForm α) (into : β → α) (back : α → Option β)
    (h : ∀ b, back (into b) = some b) (b : β) :
    ((f.via into back h).to_json b).small = (f.to_json (into b)).small := rfl

@[simp] theorem small_seq (f : JsonForm α) (as : List α) :
    (f.seq.to_json as).small = as.all fun a => (f.to_json a).small := by
  show small_items (as.map f.to_json) = _
  rw [small_items_eq, List.all_map]
  rfl

@[simp] theorem small_struct (fields : Fields α) (hnames : fields.names.Nodup) (a : α) :
    ((struct fields hnames).to_json a).small = (fields.to_values a).all small :=
  small_fields_zip (fields.length_to a)

@[simp] theorem small_first (name : String) (f : JsonForm α) (rest : Fields β) (p : α × β) :
    ((Fields.first name f rest).to_values p).all small =
      ((f.to_json p.1).small && (rest.to_values p.2).all small) := rfl

@[simp] theorem small_last (name : String) (f : JsonForm α) (a : α) :
    ((Fields.last name f).to_values a).all small = (f.to_json a).small := by
  show (small _ && true) = _
  rw [Bool.and_true]

theorem small_below {bound : Nat} {into : β → Nat} {back : Nat → β}
    {h : ∀ b, into b < bound ∧ back (into b) = b} (b : β) :
    ((below bound into back h).to_json b).small = decide (into b < 2 ^ 64) := rfl

theorem small_below_of_le {bound : Nat} {into : β → Nat} {back : Nat → β}
    {h : ∀ b, into b < bound ∧ back (into b) = b} (hbound : bound ≤ 2 ^ 64) (b : β) :
    ((below bound into back h).to_json b).small = true := by
  rw [small_below]
  exact decide_eq_true (Nat.lt_of_lt_of_le (h b).1 hbound)

end JsonForm
