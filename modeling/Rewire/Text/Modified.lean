import Rewire.Fault
import Rewire.Text.Units

/-!
# Modified UTF-8

Class files keep text unit by unit: each 16-bit unit takes one, two or three bytes, the unit zero
takes two, and a character beyond U+FFFF takes two units of three bytes each. This file fixes

* the encoding (`encodeUnit`, `encodeText`), in which no byte is zero;
* the decoding (`decodeUnits`, `decodeText`), which looks only at the leading bits of the first
  byte of each unit and takes six bits from every byte after it, whatever its leading bits are.
-/

namespace Rewire.Modified

/-! ## 1. Encoding -/

/-- A byte that carries the given number below the marking bits `mark`. -/
def marked (mark n : Nat) : UInt8 :=
  UInt8.ofNat (mark + n)

/-- The bytes of one unit. -/
def encodeUnit (u : UInt16) : Bytes :=
  let n := u.toNat
  if n ≠ 0 ∧ n < 0x80 then [marked 0 n]
  else if n < 0x800 then [marked 0xc0 (n / 0x40), marked 0x80 (n % 0x40)]
  else [marked 0xe0 (n / 0x1000), marked 0x80 (n / 0x40 % 0x40), marked 0x80 (n % 0x40)]

/-- The bytes of a sequence of units. -/
def encodeUnits (units : List UInt16) : Bytes :=
  units.flatMap encodeUnit

/-- The bytes of a text. -/
def encodeText (s : String) : Bytes :=
  encodeUnits (units16 s)

/-! ## 2. Decoding -/

/-- The low six bits of a byte that continues a unit. -/
def continuation (b : UInt8) : Nat :=
  b.toNat % 0x40

/-- The units written in a byte string, below the units decoded so far, last first. -/
def decodeUnitsOnto (done : List UInt16) : Bytes → Outcome (List UInt16)
  | [] => .ok done.reverse
  | a :: rest =>
    if a < 0x80 then decodeUnitsOnto (a.toUInt16 :: done) rest
    else if a < 0xc0 then fail (.invalidTextByte a)
    else if a < 0xe0 then
      match rest with
      | b :: rest =>
        decodeUnitsOnto (UInt16.ofNat (a.toNat % 0x20 * 0x40 + continuation b) :: done) rest
      | [] => fail .truncatedText
    else if a < 0xf0 then
      match rest with
      | b :: c :: rest =>
        decodeUnitsOnto
          (UInt16.ofNat (a.toNat % 0x10 * 0x1000 + continuation b * 0x40 + continuation c) :: done)
          rest
      | _ => fail .truncatedText
    else fail (.invalidTextByte a)

/-- The units written in a byte string. -/
def decodeUnits (bytes : Bytes) : Outcome (List UInt16) :=
  decodeUnitsOnto [] bytes

/-- The text written in a byte string. -/
def decodeText (bytes : Bytes) : Outcome String :=
  ofUnits16 <$> decodeUnits bytes

end Rewire.Modified
