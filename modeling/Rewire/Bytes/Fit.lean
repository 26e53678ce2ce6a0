import Rewire.Fault

/-!
# Numbers that have to fit a word

A number is written as a word of a fixed width only if it is in the word's range. This file fixes

* the checked conversions (`fitUnsigned16`, `fitUnsigned8`, `fitSigned16`, `fitSigned8`, …). Each
  reports a number beyond the upper end as too large and one below the lower end as too small, from
  the activity it is given;
* arithmetic on words (`addWord16`, `addWord32`, `timesWord32`). A result that is no word ends the
  computation with a failure of its own, as in a program that is built with checks for overflow. Of
  signed words there are sums and differences that may be missing (`addInt32?`, `subInt32?`).
-/

namespace Rewire

/-! ## 1. Conversions -/

/-- The number as given if it is in the range, which includes both ends. -/
def fitRange (a : Activity) (least greatest n : Int) : Outcome Int :=
  if greatest < n then during a (fail .numberTooLarge)
  else if n < least then during a (fail .numberTooSmall)
  else .ok n

/-- A number as an unsigned 8-bit word. -/
def fitUnsigned8 (a : Activity) (n : Int) : Outcome UInt8 :=
  return UInt8.ofNat (← fitRange a 0 0xff n).toNat

/-- A number as an unsigned 16-bit word. -/
def fitUnsigned16 (a : Activity) (n : Int) : Outcome UInt16 :=
  return UInt16.ofNat (← fitRange a 0 0xffff n).toNat

/-- A number as an unsigned 32-bit word. -/
def fitUnsigned32 (a : Activity) (n : Int) : Outcome UInt32 :=
  return UInt32.ofNat (← fitRange a 0 0xffffffff n).toNat

/-- A number as a signed 8-bit word. -/
def fitSigned8 (a : Activity) (n : Int) : Outcome Int8 :=
  return Int8.ofInt (← fitRange a (-0x80) 0x7f n)

/-- A number as a signed 16-bit word. -/
def fitSigned16 (a : Activity) (n : Int) : Outcome Int16 :=
  return Int16.ofInt (← fitRange a (-0x8000) 0x7fff n)

/-- A number as a signed 32-bit word. -/
def fitSigned32 (a : Activity) (n : Int) : Outcome Int32 :=
  return Int32.ofInt (← fitRange a (-0x80000000) 0x7fffffff n)

theorem fitRange_eq_ok {a : Activity} {least greatest n : Int} (h₁ : least ≤ n)
    (h₂ : n ≤ greatest) : fitRange a least greatest n = .ok n := by
  simp [fitRange, Int.not_lt.2 h₁, Int.not_lt.2 h₂]

/-! ## 2. Arithmetic -/

/-- The sum of two 16-bit words, if it is one. -/
def addWord16 (a b : UInt16) : Outcome UInt16 :=
  if a.toNat + b.toNat < 0x10000 then .ok (a + b) else fail (.overflow "add")

/-- The sum of two 32-bit words, if it is one. -/
def addWord32 (a b : UInt32) : Outcome UInt32 :=
  if a.toNat + b.toNat < 0x100000000 then .ok (a + b) else fail (.overflow "add")

/-- The product of two 32-bit words, if it is one. -/
def timesWord32 (a b : UInt32) : Outcome UInt32 :=
  if a.toNat * b.toNat < 0x100000000 then .ok (a * b) else fail (.overflow "multiply")

/-- A number as a signed 32-bit word, if it is one. -/
def asInt32? (n : Int) : Option Int32 :=
  if -0x80000000 ≤ n ∧ n ≤ 0x7fffffff then some (Int32.ofInt n) else none

/-- The sum of two signed 32-bit words, if it is one. -/
def addInt32? (a b : Int32) : Option Int32 :=
  asInt32? (a.toInt + b.toInt)

/-- The difference of two signed 32-bit words, if it is one. -/
def subInt32? (a b : Int32) : Option Int32 :=
  asInt32? (a.toInt - b.toInt)

end Rewire
