/-!
# Text as 16-bit units

The class-file format counts and encodes text in 16-bit code units: a character below U+10000 is
one unit, any other is a pair of surrogates. This file fixes

* the units of a text (`charUnits16`, `units16`);
* the text of a sequence of units (`ofUnits16`), in which a surrogate without its partner reads
  as the replacement character U+FFFD.
-/

namespace Rewire

/-! ## 1. From text to units -/

/-- The code units of one character. -/
def charUnits16 (c : Char) : List UInt16 :=
  if c.toNat < 0x10000 then [UInt16.ofNat c.toNat]
  else
    [UInt16.ofNat (0xd800 + (c.toNat - 0x10000) / 0x400),
      UInt16.ofNat (0xdc00 + (c.toNat - 0x10000) % 0x400)]

/-- The code units of a text. -/
def units16 (s : String) : List UInt16 :=
  s.toList.flatMap charUnits16

/-! ## 2. From units to text -/

/-- Whether a unit opens a surrogate pair. -/
def isLeading (u : UInt16) : Bool :=
  0xd800 ≤ u && u < 0xdc00

/-- Whether a unit closes a surrogate pair. -/
def isTrailing (u : UInt16) : Bool :=
  0xdc00 ≤ u && u < 0xe000

/-- The character a surrogate pair stands for. -/
def pairedChar (leading trailing : UInt16) : Char :=
  Char.ofNat (0x10000 + (leading.toNat - 0xd800) * 0x400 + (trailing.toNat - 0xdc00))

/-- What an unpaired surrogate reads as. -/
def replacementChar : Char := '\ufffd'

/-- The characters of a sequence of units, collected in reverse below `done`. A leading surrogate
    is read together with a trailing one right after it. -/
def charsOfUnitsOnto (done : List Char) : List UInt16 → List Char
  | [] => done.reverse
  | u :: rest =>
    if isLeading u then
      match rest with
      | v :: rest' =>
        if isTrailing v then charsOfUnitsOnto (pairedChar u v :: done) rest'
        else charsOfUnitsOnto (replacementChar :: done) (v :: rest')
      | [] => (replacementChar :: done).reverse
    else if isTrailing u then charsOfUnitsOnto (replacementChar :: done) rest
    else charsOfUnitsOnto (Char.ofNat u.toNat :: done) rest

/-- The text of a sequence of units. -/
def ofUnits16 (units : List UInt16) : String :=
  String.ofList (charsOfUnitsOnto [] units)

end Rewire
