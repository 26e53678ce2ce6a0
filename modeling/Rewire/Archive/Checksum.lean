import Rewire.Bytes.Basic

/-!
# Checksums

An archive keeps a cyclic redundancy check of every entry. This file fixes the check of a byte
string (`checksum`): the remainder of division by the reflected polynomial `0xedb88320`, with all
bits inverted before and after.
-/

namespace Rewire

/-- The divisor, its bits in reverse order. -/
def checksumPolynomial : UInt32 := 0xedb88320

/-- One bit of the division. -/
def checksumBit (v : UInt32) : UInt32 :=
  if v &&& 1 = 1 then (v >>> 1) ^^^ checksumPolynomial else v >>> 1

/-- The remainder after one more byte. -/
def checksumByte (v : UInt32) (b : UInt8) : UInt32 :=
  (List.range 8).foldl (fun v _ => checksumBit v) (v ^^^ b.toUInt32)

/-- The check of a byte string. -/
def checksum (data : Bytes) : UInt32 :=
  ~~~ data.foldl checksumByte 0xffffffff

end Rewire
