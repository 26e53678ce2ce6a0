/-!
# Hexadecimal numerals

Messages show bytes and magic numbers in lower-case hexadecimal, padded with zeros to a fixed
width. This file fixes that one numeral form (`hexadecimal`).
-/

namespace Rewire

/-- The lower-case hexadecimal numeral of `n`, padded on the left with zeros to `width` digits. -/
def hexadecimal (width n : Nat) : String :=
  let digits := Nat.toDigits 16 n
  String.ofList (List.replicate (width - digits.length) '0' ++ digits)

end Rewire
