-- Bytes that arrive in chunks. A read takes as many chunks as it needs, so what it
-- gives depends on the bytes and not on where they were cut.
import Mathlib.Data.List.Basic

namespace Frames

/-! ## Reading -/

/-- A buffer filled from the front of the chunks, and what is left of them. The stream ends with
the last chunk. -/
def read_exact {α : Type} (len : Nat) : List (List α) → Option (List α × List (List α))
  | [] => if len = 0 then some ([], []) else none
  | chunk :: chunks =>
    if len ≤ chunk.length then some (chunk.take len, chunk.drop len :: chunks)
    else (read_exact (len - chunk.length) chunks).map fun (buf, rest) => (chunk ++ buf, rest)

section ReadExact

variable {α : Type} {len : Nat} {chunks : List (List α)}

theorem read_exact_ok (h : len ≤ chunks.flatten.length) :
    ∃ rest, read_exact len chunks = some (chunks.flatten.take len, rest) ∧
      rest.flatten = chunks.flatten.drop len := by
  induction chunks generalizing len with
  | nil =>
    obtain rfl : len = 0 := Nat.le_zero.mp h
    exact ⟨[], rfl, rfl⟩
  | cons chunk chunks ih =>
    rw [List.flatten_cons] at h ⊢
    unfold read_exact
    by_cases hfits : len ≤ chunk.length
    · rw [if_pos hfits]
      refine ⟨chunk.drop len :: chunks, ?_, ?_⟩
      · rw [List.take_append_of_le_length hfits]
      · rw [List.drop_append_of_le_length hfits, List.flatten_cons]
    · rw [if_neg hfits]
      rw [List.length_append] at h
      obtain ⟨rest, hread, hrest⟩ := @ih (len - chunk.length) (by omega)
      have hle : chunk.length ≤ len := Nat.le_of_not_le hfits
      refine ⟨rest, ?_, ?_⟩
      · rw [hread, List.take_append, List.take_of_length_le hle]
        rfl
      · rw [hrest, List.drop_append, List.drop_eq_nil_of_le hle, List.nil_append]

theorem read_exact_eof (h : chunks.flatten.length < len) : read_exact len chunks = none := by
  induction chunks generalizing len with
  | nil =>
    have hne : len ≠ 0 := Nat.ne_of_gt h
    unfold read_exact
    rw [if_neg hne]
  | cons chunk chunks ih =>
    rw [List.flatten_cons, List.length_append] at h
    unfold read_exact
    rw [if_neg (by omega), ih (by omega)]
    rfl

theorem read_exact_eq_some {buf : List α} {rest : List (List α)}
    (h : read_exact len chunks = some (buf, rest)) :
    len ≤ chunks.flatten.length ∧ buf = chunks.flatten.take len ∧
      rest.flatten = chunks.flatten.drop len := by
  by_cases hlen : len ≤ chunks.flatten.length
  · obtain ⟨rest', hread, hrest⟩ := read_exact_ok hlen
    rw [hread] at h
    cases h
    exact ⟨hlen, rfl, hrest⟩
  · rw [read_exact_eof (Nat.lt_of_not_le hlen)] at h
    cases h

/-- A read of what stands in front of the stream. -/
theorem read_exact_append {buf rest : List α} (h : chunks.flatten = buf ++ rest)
    (hlen : buf.length = len) :
    ∃ chunks', read_exact len chunks = some (buf, chunks') ∧ chunks'.flatten = rest := by
  subst hlen
  have hfits : buf.length ≤ chunks.flatten.length := by
    rw [h, List.length_append]
    exact Nat.le_add_right _ _
  obtain ⟨chunks', hread, hrest⟩ := read_exact_ok hfits
  refine ⟨chunks', ?_, ?_⟩
  · rw [hread, h, List.take_left]
  · rw [hrest, h, List.drop_left]

end ReadExact

/-! ## Lengths -/

def to_be_bytes (n : UInt32) : List UInt8 :=
  [UInt8.ofNat (n.toNat / 16777216), UInt8.ofNat (n.toNat / 65536), UInt8.ofNat (n.toNat / 256),
    UInt8.ofNat n.toNat]

def from_be_bytes (bytes : List UInt8) : Nat := bytes.foldl (fun n b => 256 * n + b.toNat) 0

theorem from_be_bytes_to_be_bytes (n : UInt32) : from_be_bytes (to_be_bytes n) = n.toNat := by
  have hlt := n.toNat_lt
  simp only [from_be_bytes, to_be_bytes, List.foldl_cons, List.foldl_nil, UInt8.toNat_ofNat']
  omega

/-- Four bytes that no control character is among make a large number. -/
theorem le_from_be_bytes {bytes : List UInt8} (hlen : bytes.length = 4)
    (h : ∀ b ∈ bytes, 32 ≤ b) : 0x20202020 ≤ from_be_bytes bytes := by
  match bytes, hlen with
  | [a, b, c, d], _ =>
    have hle : ∀ x ∈ [a, b, c, d], 32 ≤ x.toNat := fun x hx => UInt8.le_iff_toNat_le.mp (h x hx)
    have ha := hle a (by simp)
    have hb := hle b (by simp)
    have hc := hle c (by simp)
    have hd := hle d (by simp)
    simp only [from_be_bytes, List.foldl_cons, List.foldl_nil]
    omega

end Frames
