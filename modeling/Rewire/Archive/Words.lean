import Rewire.Bytes.Basic

/-!
# Little-endian words

Archives write their numbers with the least significant byte first. This file fixes

* the words a writer emits (`le16`, `le32`), which keep the low bits of a number;
* the words at a position of a byte string (`le16At?`, `le32At?`), each the inverse of its emitter
  on numbers that fit (`le16At?_le16`).
-/

namespace Rewire

/-! ## 1. Emitting words -/

/-- The low 16 bits of a number in two bytes, least significant first. -/
def le16 (n : Nat) : Bytes :=
  [UInt8.ofNat n, UInt8.ofNat (n / 0x100)]

/-- The low 32 bits of a number in four bytes, least significant first. -/
def le32 (n : Nat) : Bytes :=
  le16 n ++ le16 (n / 0x10000)

@[simp] theorem length_le16 (n : Nat) : (le16 n).length = 2 := rfl

@[simp] theorem length_le32 (n : Nat) : (le32 n).length = 4 := rfl

/-! ## 2. Reading words -/

/-- The 16-bit number at a position. -/
def le16At? (data : Array UInt8) (i : Nat) : Option Nat := do
  let low ← data[i]?
  let high ← data[i + 1]?
  return low.toNat + 0x100 * high.toNat

/-- The 32-bit number at a position. -/
def le32At? (data : Array UInt8) (i : Nat) : Option Nat := do
  let low ← le16At? data i
  let high ← le16At? data (i + 2)
  return low + 0x10000 * high

theorem le16At?_le16 {n : Nat} (h : n < 0x10000) : le16At? (le16 n).toArray 0 = some n := by
  simp [le16At?, le16]
  omega

theorem le32At?_le32 {n : Nat} (h : n < 0x100000000) : le32At? (le32 n).toArray 0 = some n := by
  simp [le32At?, le16At?, le32, le16]
  omega

end Rewire
