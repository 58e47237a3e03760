/-
# `dsa::frequency::CountMinSketch`

The sketch as the source has it: the seeded hash on bytes, the table of
`uint64_t` cells, `record` and `estimate`.  A remainder by a zero `width` and an
index out of bounds are undefined, hence the `Option`.
-/
import ZtMapper.Frequency.Counters

namespace Frequency

/-- `(x << r) | (x >> (32 - r))` -/
def rotl (x r : UInt32) : UInt32 := (x <<< r) ||| (x >>> (32 - r))

/-- The scrambling of a word before it enters the hash. -/
def scramble (k : UInt32) : UInt32 := rotl (k * 0xcc9e2d51) 15 * 0x1b873593

/-- Four bytes in memory order as a (little-endian) word. -/
def word (b0 b1 b2 b3 : UInt8) : UInt32 :=
  b0.toUInt32 ||| (b1.toUInt32 <<< 8) ||| (b2.toUInt32 <<< 16) ||| (b3.toUInt32 <<< 24)

/-- The loop over the 4-byte chunks, and the `switch` on the bytes that remain. -/
def hashBytes : List UInt8 → UInt32 → UInt32
  | b0 :: b1 :: b2 :: b3 :: data, h =>
    hashBytes data (rotl (h ^^^ scramble (word b0 b1 b2 b3)) 13 * 5 + 0xe6546b64)
  | [b0, b1, b2], h =>
    h ^^^ scramble ((b2.toUInt32 <<< 16) ^^^ (b1.toUInt32 <<< 8) ^^^ b0.toUInt32)
  | [b0, b1], h => h ^^^ scramble ((b1.toUInt32 <<< 8) ^^^ b0.toUInt32)
  | [b0], h => h ^^^ scramble b0.toUInt32
  | [], h => h

/-- The finalization. -/
def finalize (h : UInt32) : UInt32 :=
  let h := h ^^^ (h >>> 16)
  let h := h * 0x85ebca6b
  let h := h ^^^ (h >>> 13)
  let h := h * 0xc2b2ae35
  h ^^^ (h >>> 16)

/-- The class. -/
structure CountMinSketch where
  width : UInt32
  depth : UInt32
  table : List (List UInt64)
  seeds : List UInt32

namespace CountMinSketch

/-- `hash(key, key_len, seed)` -/
def hash (key : Key) (seed : UInt32) : UInt32 :=
  finalize (hashBytes key seed ^^^ UInt32.ofNat key.length)

/-- The seed of row `i`. -/
def seed (i : ℕ) : UInt32 := 0x9e3779b9 + UInt32.ofNat i * 0x517cc1b7

/-- The constructor. -/
def create (width depth : UInt32) : CountMinSketch where
  width := width
  depth := depth
  table := List.replicate depth.toNat (List.replicate width.toNat 0)
  seeds := (List.range depth.toNat).map seed

/-- `hash(key, key_len, seeds_[i]) % width_` -/
def col (c : CountMinSketch) (key : Key) (i : ℕ) : Option ℕ := do
  let seed ← c.seeds[i]?
  if c.width = 0 then none else some (hash key seed % c.width).toNat

/-- `table_[i][col]` -/
def cell (table : List (List UInt64)) (i col : ℕ) : Option UInt64 :=
  table[i]?.bind fun row => row[col]?

/-- `table_[i][col]++` -/
def bump (table : List (List UInt64)) (i col : ℕ) : Option (List (List UInt64)) := do
  let row ← table[i]?
  let v ← row[col]?
  return table.set i (row.set col (v + 1))

def record (c : CountMinSketch) (key : Key) : Option CountMinSketch := do
  let table ← (List.range c.depth.toNat).foldlM (fun table i => do
    let col ← c.col key i
    bump table i col) c.table
  return { c with table := table }

/-- `std::numeric_limits<uint64_t>::max()` -/
def uint64Max : UInt64 := 0xffffffffffffffff

/-- `std::min(a, b)` -/
def stdMin (a b : UInt64) : UInt64 := if b < a then b else a

def estimate (c : CountMinSketch) (key : Key) : Option UInt64 :=
  (List.range c.depth.toNat).foldlM (fun minVal i => do
    let col ← c.col key i
    let v ← cell c.table i col
    return stdMin minVal v) uint64Max

def reset (c : CountMinSketch) : CountMinSketch :=
  { c with table := c.table.map fun row => row.map fun _ => 0 }

def apply (c : CountMinSketch) : Call → Option CountMinSketch
  | .record key => c.record key
  | .reset => some c.reset

def run (c : CountMinSketch) (calls : List Call) : Option CountMinSketch :=
  calls.foldlM apply c

end CountMinSketch

end Frequency
