-- The BLAKE3 hash, in its plain mode with a 32-byte output. The words are natural
-- numbers below 2^32, and the sixteen words of a block or of a state are four
-- rows of four.
import Mathlib

namespace Blake3

/-! ## The compression function -/

structure Row where
  x : Nat
  y : Nat
  z : Nat
  w : Nat

structure Grid where
  a : Row
  b : Row
  c : Row
  d : Row

/-- The eight words that go from one block to the next. -/
structure Chaining where
  a : Row
  b : Row

def Row.map₂ (f : Nat → Nat → Nat) (r s : Row) : Row :=
  ⟨f r.x s.x, f r.y s.y, f r.z s.z, f r.w s.w⟩

/-- The row turned by one place. -/
def Row.left (r : Row) : Row := ⟨r.y, r.z, r.w, r.x⟩

def add (a b : Nat) : Nat := (a + b) % 2 ^ 32

/-- The words xored, then rotated right by `k` bits. -/
def xor_rotate (k a b : Nat) : Nat :=
  (a ^^^ b) / 2 ^ k + (a ^^^ b) % 2 ^ k * 2 ^ (32 - k)

def half (r s : Nat) (m : Row) (v : Grid) : Grid :=
  let a := (v.a.map₂ add v.b).map₂ add m
  let d := v.d.map₂ (xor_rotate r) a
  let c := v.c.map₂ add d
  let b := v.b.map₂ (xor_rotate s) c
  ⟨a, b, c, d⟩

/-- The function `G` on the four columns at once. -/
def mix (mx my : Row) (v : Grid) : Grid := half 8 7 my (half 16 12 mx v)

/-- The columns, then the diagonals. -/
def round (m v : Grid) : Grid :=
  let v := mix ⟨m.a.x, m.a.z, m.b.x, m.b.z⟩ ⟨m.a.y, m.a.w, m.b.y, m.b.w⟩ v
  let v := mix ⟨m.c.x, m.c.z, m.d.x, m.d.z⟩ ⟨m.c.y, m.c.w, m.d.y, m.d.w⟩
    ⟨v.a, v.b.left, v.c.left.left, v.d.left.left.left⟩
  ⟨v.a, v.b.left.left.left, v.c.left.left, v.d.left⟩

/-- The order of the message words in the next round: 2, 6, 3, 10, 7, 0, 4, 13 and
1, 11, 12, 5, 9, 14, 15, 8. -/
def permute (m : Grid) : Grid :=
  ⟨⟨m.a.z, m.b.z, m.a.w, m.c.z⟩, ⟨m.b.w, m.a.x, m.b.x, m.d.y⟩,
    ⟨m.a.y, m.c.w, m.d.x, m.b.y⟩, ⟨m.c.y, m.d.z, m.d.w, m.c.x⟩⟩

def rounds : Nat → Grid → Grid → Grid
  | 0, _, v => v
  | n + 1, m, v => rounds n (permute m) (round m v)

def IV : Chaining :=
  ⟨⟨0x6A09E667, 0xBB67AE85, 0x3C6EF372, 0xA54FF53A⟩,
    ⟨0x510E527F, 0x9B05688C, 0x1F83D9AB, 0x5BE0CD19⟩⟩

def compress (cv : Chaining) (m : Grid) (counter len flags : Nat) : Chaining :=
  let v := rounds 7 m
    ⟨cv.a, cv.b, IV.a, ⟨counter % 2 ^ 32, counter / 2 ^ 32, len, flags⟩⟩
  ⟨v.a.map₂ (· ^^^ ·) v.c, v.b.map₂ (· ^^^ ·) v.d⟩

/-! ## Chunks and the tree -/

def CHUNK_START : Nat := 1
def CHUNK_END : Nat := 2
def PARENT : Nat := 4
def ROOT : Nat := 8

/-- A word, its low byte first. -/
def word : List UInt8 → Nat
  | [] => 0
  | b :: s => b.toNat + 256 * word s

/-- The words of a block, with zeros after its end. -/
def block_words (s : List UInt8) : Grid :=
  let w := fun i => word ((s.drop (4 * i)).take 4)
  ⟨⟨w 0, w 1, w 2, w 3⟩, ⟨w 4, w 5, w 6, w 7⟩, ⟨w 8, w 9, w 10, w 11⟩, ⟨w 12, w 13, w 14, w 15⟩⟩

/-- The pieces of `n` bytes that a text is cut into, the last one possibly shorter. -/
def pieces (n : Nat) : Nat → List UInt8 → List (List UInt8)
  | 0, s => [s]
  | fuel + 1, s => if s.length ≤ n then [s] else s.take n :: pieces n fuel (s.drop n)

/-- The blocks of a chunk, one after another. -/
def chain (counter root : Nat) : Chaining → Nat → List (List UInt8) → Chaining
  | cv, _, [] => cv
  | cv, start, [s] => compress cv (block_words s) counter s.length (start + CHUNK_END + root)
  | cv, start, s :: rest =>
    chain counter root (compress cv (block_words s) counter 64 start) 0 rest

def chunk (counter root : Nat) (s : List UInt8) : Chaining :=
  chain counter root IV CHUNK_START (pieces 64 s.length s)

/-- The tree over some chunks: on the left the largest power of two that leaves one. -/
def tree : Nat → Nat → Nat → List (List UInt8) → Chaining
  | _, counter, root, [s] => chunk counter root s
  | 0, _, _, _ => IV
  | fuel + 1, counter, root, chunks =>
    let k := 2 ^ (chunks.length - 1).log2
    let l := tree fuel counter 0 (chunks.take k)
    let r := tree fuel (counter + k) 0 (chunks.drop k)
    compress IV ⟨l.a, l.b, r.a, r.b⟩ 0 64 (PARENT + root)

/-! ## The digest -/

def Row.toNat (r : Row) : Nat := r.x + 2 ^ 32 * (r.y + 2 ^ 32 * (r.z + 2 ^ 32 * r.w))

/-- The eight words as one number, the first one lowest. -/
def Chaining.toNat (cv : Chaining) : Nat := cv.a.toNat + 2 ^ 128 * cv.b.toNat

def digest_bytes (n : Nat) : Vector UInt8 32 :=
  ⟨((List.range 32).map fun i => UInt8.ofNat (n / 256 ^ i)).toArray, rfl⟩

/-- The number is evaluated before its bytes are taken, so that a text that holds a digest
does not hold the computation of it. -/
def digest (n : Nat) : Vector UInt8 32 :=
  match n with
  | 0 => digest_bytes 0
  | n + 1 => digest_bytes (n + 1)

def hash (s : List UInt8) : Vector UInt8 32 :=
  digest (tree s.length 0 ROOT (pieces 1024 s.length s)).toNat

-- The first bytes for the empty text.
example : (hash []).toList.take 4 = [0xaf, 0x13, 0x49, 0xb9] := by decide +kernel

end Blake3
