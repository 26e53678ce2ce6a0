import Rewire.Archive.Words

/-!
# Compressed data

The entries of an archive are compressed in blocks: bytes as they are, or a sequence of symbols in
prefix codes, where a symbol is a byte, the end of the block, or a reference to bytes before. Bits
are taken from each byte with the least significant one first. This file fixes

* reading bits (`BitReader`) and canonical prefix codes given by the lengths of their words
  (`PrefixCode`);
* references (`copyBack`) and the sequence of symbols of a block (`inflateSymbols`);
* the three kinds of block and the whole (`inflate`);
* data in blocks of bytes as they are (`deflateStored`), which is what is written.

Every symbol and every block takes at least one bit, so the number of bits bounds all loops.
-/

namespace Rewire

/-! ## 1. Bits -/

/-- A position in a byte string, counted in bits. -/
structure BitCursor where
  data : Array UInt8
  position : Nat

/-- A step that reads bits, or finds that there are none left. -/
abbrev BitReader := StateT BitCursor Option

namespace BitReader

/-- Reads one bit. -/
def bit : BitReader Nat := fun c =>
  match c.data[c.position / 8]? with
  | some b => some ((b.toNat >>> (c.position % 8)) % 2, { c with position := c.position + 1 })
  | none => none

/-- Reads a number of bits, the least significant one first. -/
def bits (count : Nat) : BitReader Nat :=
  (List.range count).foldlM (fun v i => return v + (← bit) <<< i) 0

/-- Goes on to the start of the next byte, unless at the start of one. -/
def align : BitReader Unit := fun c =>
  some ((), { c with position := (c.position + 7) / 8 * 8 })

end BitReader

/-! ## 2. Prefix codes -/

/-- A canonical prefix code: words of one length are numbered in the order of their symbols, and
    shorter words come before longer ones. -/
structure PrefixCode where
  /-- The number of words of each length, from one on. -/
  counts : List Nat
  /-- The symbols in the order of their words. -/
  symbols : Array Nat

namespace PrefixCode

/-- No word is longer. -/
def maxLength : Nat := 15

/-- The code in which each symbol has a word of the given length, or none if that is 0. -/
def ofLengths (lengths : List Nat) : PrefixCode :=
  let wordLengths := List.range' 1 maxLength
  { counts := wordLengths.map fun n => lengths.count n
    symbols := (wordLengths.flatMap fun n =>
      (lengths.zipIdx.filter fun (length, _) => length = n).map Prod.snd).toArray }

/-- Reads a word and gives its symbol. So far `value` was read; the words of this length start at
    `first`, and their symbols at `index`. -/
def readFrom (symbols : Array Nat) (value first index : Nat) : List Nat → BitReader Nat
  | [] => failure
  | count :: rest => do
    let value := value + (← BitReader.bit)
    if value < first + count then symbols[index + (value - first)]?.getDM failure
    else readFrom symbols (2 * value) (2 * (first + count)) (index + count) rest

/-- Reads a word and gives its symbol. -/
def read (code : PrefixCode) : BitReader Nat :=
  readFrom code.symbols 0 0 0 code.counts

end PrefixCode

/-! ## 3. Symbols -/

/-- The symbol that ends a block. -/
def endOfBlock : Nat := 256

/-- The base and the number of further bits of each length symbol, from the first one on. -/
def lengthBases : Array (Nat × Nat) :=
  #[(3, 0), (4, 0), (5, 0), (6, 0), (7, 0), (8, 0), (9, 0), (10, 0), (11, 1), (13, 1), (15, 1),
    (17, 1), (19, 2), (23, 2), (27, 2), (31, 2), (35, 3), (43, 3), (51, 3), (59, 3), (67, 4),
    (83, 4), (99, 4), (115, 4), (131, 5), (163, 5), (195, 5), (227, 5), (258, 0)]

/-- The base and the number of further bits of each distance symbol. -/
def distanceBases : Array (Nat × Nat) :=
  #[(1, 0), (2, 0), (3, 0), (4, 0), (5, 1), (7, 1), (9, 2), (13, 2), (17, 3), (25, 3), (33, 4),
    (49, 4), (65, 5), (97, 5), (129, 6), (193, 6), (257, 7), (385, 7), (513, 8), (769, 8),
    (1025, 9), (1537, 9), (2049, 10), (3073, 10), (4097, 11), (6145, 11), (8193, 12), (12289, 12),
    (16385, 13), (24577, 13)]

/-- Reads what a symbol with further bits stands for. -/
def readExtended (bases : Array (Nat × Nat)) (symbol : Nat) : BitReader Nat := do
  let (base, extra) ← bases[symbol]?.getDM failure
  return base + (← BitReader.bits extra)

/-- The bytes with some of them, from a distance before the end on, once more at the end. They may
    reach into what is copied. -/
def copyBack (out : Array UInt8) (distance : Nat) : Nat → Array UInt8
  | 0 => out
  | count + 1 => copyBack (out.push ((out[out.size - distance]?).getD 0)) distance count

/-- Reads the symbols of a block behind the bytes in `out`, at most as many as `fuel`. -/
def inflateSymbols (symbols distances : PrefixCode) : Nat → Array UInt8 → BitReader (Array UInt8)
  | 0, _ => failure
  | fuel + 1, out => do
    let symbol ← symbols.read
    if symbol < endOfBlock then inflateSymbols symbols distances fuel (out.push (UInt8.ofNat symbol))
    else if symbol = endOfBlock then return out
    else
      let length ← readExtended lengthBases (symbol - endOfBlock - 1)
      let distance ← readExtended distanceBases (← distances.read)
      if out.size < distance then failure
      else inflateSymbols symbols distances fuel (copyBack out distance length)

/-! ## 4. Blocks -/

/-- Reads a block of bytes as they are: their number, its complement, the bytes. -/
def inflateStored (out : Array UInt8) : BitReader (Array UInt8) := do
  BitReader.align
  let length ← BitReader.bits 16
  let complement ← BitReader.bits 16
  if length + complement ≠ 0xffff then failure
  let c ← get
  let start := c.position / 8
  if c.data.size < start + length then failure
  set { c with position := c.position + 8 * length }
  return out ++ c.data.extract start (start + length)

/-- The code of the symbols when a block brings none. -/
def fixedSymbols : PrefixCode :=
  .ofLengths (List.replicate 144 8 ++ List.replicate 112 9 ++ List.replicate 24 7 ++
    List.replicate 8 8)

/-- The code of the distances when a block brings none. -/
def fixedDistances : PrefixCode :=
  .ofLengths (List.replicate 30 5)

/-- The order in which a block gives the lengths of the words for lengths. -/
def lengthOrder : List Nat :=
  [16, 17, 18, 0, 8, 7, 9, 6, 10, 5, 11, 4, 12, 3, 13, 2, 14, 1, 15]

/-- Reads the lengths of words, in reverse below `done`, until there are `count`. -/
def readLengths (code : PrefixCode) (count : Nat) : Nat → List Nat → BitReader (List Nat)
  | 0, _ => failure
  | fuel + 1, done => do
    if count ≤ done.length then return done.reverse
    else
      match ← code.read with
      | 16 =>
        let last ← done.head?.getDM failure
        readLengths code count fuel (List.replicate (3 + (← BitReader.bits 2)) last ++ done)
      | 17 => readLengths code count fuel (List.replicate (3 + (← BitReader.bits 3)) 0 ++ done)
      | 18 => readLengths code count fuel (List.replicate (11 + (← BitReader.bits 7)) 0 ++ done)
      | length => readLengths code count fuel (length :: done)

/-- Reads the codes that a block brings, of its symbols and of its distances. -/
def readCodes : BitReader (PrefixCode × PrefixCode) := do
  let symbolCount := (← BitReader.bits 5) + 257
  let distanceCount := (← BitReader.bits 5) + 1
  let given := (← BitReader.bits 4) + 4
  let wordLengths ← (List.range given).mapM fun _ => BitReader.bits 3
  let lengthOf (symbol : Nat) : Nat := ((lengthOrder.zip wordLengths).lookup symbol).getD 0
  let code := PrefixCode.ofLengths ((List.range 19).map lengthOf)
  let count := symbolCount + distanceCount
  let lengths ← readLengths code count (count + 1) []
  return (.ofLengths (lengths.take symbolCount),
    .ofLengths ((lengths.take count).drop symbolCount))

/-- Reads blocks behind the bytes in `out` up to the one marked as the last. -/
def inflateBlocks (limit : Nat) : Nat → Array UInt8 → BitReader (Array UInt8)
  | 0, _ => failure
  | fuel + 1, out => do
    let isLast ← BitReader.bit
    let out ← match ← BitReader.bits 2 with
      | 0 => inflateStored out
      | 1 => inflateSymbols fixedSymbols fixedDistances limit out
      | 2 => do
        let (symbols, distances) ← readCodes
        inflateSymbols symbols distances limit out
      | _ => failure
    if isLast = 1 then return out else inflateBlocks limit fuel out

/-- The data that was compressed. -/
def inflate (data : Array UInt8) : Option (Array UInt8) :=
  let limit := 8 * data.size + 1
  ((inflateBlocks limit limit #[]).run { data, position := 0 }).map Prod.fst

/-! ## 5. Writing -/

/-- A block has at most this many bytes as they are. -/
def maxStoredBlock : Nat := 0xffff

/-- The bytes of a block of bytes as they are. -/
def storedBlock (isLast : Bool) (data : Bytes) : Bytes :=
  (if isLast then 1 else 0) :: le16 data.length ++ le16 (0xffff - data.length) ++ data

/-- Data in blocks of bytes as they are. -/
def deflateStored (data : Bytes) : Bytes :=
  if data.length ≤ maxStoredBlock then storedBlock true data
  else storedBlock false (data.take maxStoredBlock) ++ deflateStored (data.drop maxStoredBlock)
termination_by data.length
decreasing_by simp [maxStoredBlock] at *; omega

end Rewire
