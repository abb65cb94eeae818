/-!
The BLAKE3 hash function of a byte string, with 32 bytes of output.

The state of a compression is a square of four rows of four words.  A round
mixes the columns, and then the diagonals: rotating the rows by their number
turns diagonals into columns.
-/

namespace SsaGraph
namespace Blake3

/-- Four words that are worked on side by side. -/
structure Row where
  a : UInt32
  b : UInt32
  c : UInt32
  d : UInt32
  deriving DecidableEq, Repr

namespace Row

def zip (f : UInt32 → UInt32 → UInt32) (x y : Row) : Row :=
  ⟨f x.a y.a, f x.b y.b, f x.c y.c, f x.d y.d⟩

def map (f : UInt32 → UInt32) (x : Row) : Row := ⟨f x.a, f x.b, f x.c, f x.d⟩

def add : Row → Row → Row := zip (· + ·)

def xor : Row → Row → Row := zip (· ^^^ ·)

/-- Rotate every word to the right by `n` bits, `0 < n < 32`. -/
def rotateBits (n : UInt32) : Row → Row := map fun w => (w >>> n) ||| (w <<< (32 - n))

/-- Move every word one place to the left. -/
def left (x : Row) : Row := ⟨x.b, x.c, x.d, x.a⟩

def ofWords (ws : List UInt32) : Row :=
  ⟨ws[0]?.getD 0, ws[1]?.getD 0, ws[2]?.getD 0, ws[3]?.getD 0⟩

def words (x : Row) : List UInt32 := [x.a, x.b, x.c, x.d]

end Row

structure State where
  r0 : Row
  r1 : Row
  r2 : Row
  r3 : Row
  deriving DecidableEq, Repr

namespace State

/-- Half of the mixing function, on all columns at once. -/
def halfMix (s : State) (m : Row) (n₁ n₂ : UInt32) : State :=
  let r0 := (s.r0.add s.r1).add m
  let r3 := (s.r3.xor r0).rotateBits n₁
  let r2 := s.r2.add r3
  let r1 := (s.r1.xor r2).rotateBits n₂
  ⟨r0, r1, r2, r3⟩

def mix (s : State) (x y : Row) : State := (s.halfMix x 16 12).halfMix y 8 7

def diagonals (s : State) : State := ⟨s.r0, s.r1.left, s.r2.left.left, s.r3.left.left.left⟩

def columns (s : State) : State := ⟨s.r0, s.r1.left.left.left, s.r2.left.left, s.r3.left⟩

end State

/-- Pick the words at the given places. -/
def pick (m : List UInt32) (places : List Nat) : List UInt32 := places.map fun i => m[i]?.getD 0

def permutation : List Nat := [2, 6, 3, 10, 7, 0, 4, 13, 1, 11, 12, 5, 9, 14, 15, 8]

def round (s : State) (m : List UInt32) : State :=
  let row (places : List Nat) : Row := Row.ofWords (pick m places)
  let s := s.mix (row [0, 2, 4, 6]) (row [1, 3, 5, 7])
  (s.diagonals.mix (row [8, 10, 12, 14]) (row [9, 11, 13, 15])).columns

def rounds : Nat → State → List UInt32 → State
  | 0, s, _ => s
  | n + 1, s, m => rounds n (round s m) (pick m permutation)

/-- A chaining value of eight words. -/
structure Chain where
  low : Row
  high : Row
  deriving DecidableEq, Repr

namespace Chain

def start : Chain :=
  ⟨⟨0x6A09E667, 0xBB67AE85, 0x3C6EF372, 0xA54FF53A⟩,
   ⟨0x510E527F, 0x9B05688C, 0x1F83D9AB, 0x5BE0CD19⟩⟩

def words (c : Chain) : List UInt32 := c.low.words ++ c.high.words

end Chain

def chunkStart : UInt32 := 1
def chunkEnd : UInt32 := 2
def parent : UInt32 := 4
def root : UInt32 := 8

/-- Compress a block of sixteen words into a chaining value. -/
def compress (c : Chain) (m : List UInt32) (counter : UInt64) (length flags : UInt32) : Chain :=
  let last : Row := ⟨counter.toUInt32, (counter >>> 32).toUInt32, length, flags⟩
  let s := rounds 7 ⟨c.low, c.high, Chain.start.low, last⟩ m
  ⟨s.r0.xor s.r2, s.r1.xor s.r3⟩

/-! ## Bytes and words -/

def bytesOfWord (w : UInt32) : List UInt8 :=
  [w.toUInt8, (w >>> 8).toUInt8, (w >>> 16).toUInt8, (w >>> 24).toUInt8]

/-- Little-endian words; missing bytes of the last one are zero. -/
def wordsOfBytes : List UInt8 → List UInt32
  | [] => []
  | [a] => [a.toUInt32]
  | [a, b] => [a.toUInt32 ||| (b.toUInt32 <<< 8)]
  | [a, b, c] => [a.toUInt32 ||| (b.toUInt32 <<< 8) ||| (c.toUInt32 <<< 16)]
  | a :: b :: c :: d :: rest =>
    (a.toUInt32 ||| (b.toUInt32 <<< 8) ||| (c.toUInt32 <<< 16) ||| (d.toUInt32 <<< 24)) ::
      wordsOfBytes rest

/-! ## Chunks and their tree -/

/-- Chaining value of a chunk, at most 1024 bytes.  Its blocks have 64 bytes, the
last one the rest; `flags` holds for the last block, and `first` for the next
one. -/
def chunk (counter : UInt64) (flags first : UInt32) (c : Chain) (bytes : List UInt8) : Chain :=
  if _h : bytes.length ≤ 64 then
    compress c (wordsOfBytes bytes) counter (UInt32.ofNat bytes.length) (first ||| chunkEnd ||| flags)
  else
    chunk counter flags 0 (compress c (wordsOfBytes (bytes.take 64)) counter 64 first)
      (bytes.drop 64)
termination_by bytes.length
decreasing_by simp only [List.length_drop]; omega

/-- Bytes in the left part of a tree over `n > 1024` bytes: the largest power of
two of whole chunks that leaves something over. -/
def leftLength (n : Nat) : Nat := 1024 <<< ((n - 1) / 1024).log2

theorem leftLength_pos (n : Nat) : 0 < leftLength n := by
  rw [leftLength, Nat.shiftLeft_eq]
  exact Nat.mul_pos (by decide) (Nat.two_pow_pos _)

theorem leftLength_lt {n : Nat} (h : 1024 < n) : leftLength n < n := by
  have hq : (n - 1) / 1024 ≠ 0 := by
    have : 1 ≤ (n - 1) / 1024 := (Nat.le_div_iff_mul_le (by decide)).2 (by omega)
    omega
  have := Nat.log2_self_le hq
  have hm : 1024 * ((n - 1) / 1024) ≤ n - 1 := Nat.mul_div_le _ _
  rw [leftLength, Nat.shiftLeft_eq]
  have := Nat.mul_le_mul_left 1024 this
  omega

/-- Chaining value of a tree; `counter` is the number of chunks before it. -/
def tree (counter : UInt64) (flags : UInt32) (bytes : List UInt8) : Chain :=
  if _h : bytes.length ≤ 1024 then chunk counter flags chunkStart Chain.start bytes
  else
    let n := leftLength bytes.length
    let left := tree counter 0 (bytes.take n)
    let right := tree (counter + UInt64.ofNat (n / 1024)) 0 (bytes.drop n)
    compress Chain.start (left.words ++ right.words) 0 64 (parent ||| flags)
termination_by bytes.length
decreasing_by
  · have := leftLength_lt (n := bytes.length) (by omega)
    simp only [List.length_take]
    omega
  · have := leftLength_pos bytes.length
    simp only [List.length_drop]
    omega

/-- The hash of a byte string. -/
def hash (bytes : List UInt8) : List UInt8 :=
  (tree 0 root bytes).words.flatMap bytesOfWord

end Blake3
end SsaGraph
