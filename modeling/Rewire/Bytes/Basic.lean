/-!
# Byte strings and big-endian words

Class files are byte strings whose numbers are unsigned big-endian words. This file fixes

* the type of byte strings (`Bytes`, a list, so that what a writer produces is literally the
  concatenation of its parts);
* the words a writer emits (`be16`, `be32`, `be64`), most significant byte first;
* the words a reader puts together again (`word16`, `word32`), each the inverse of its emitter
  (`word16_be16`, `word32_be32`).
-/

namespace Rewire

/-- A finite string of bytes. -/
abbrev Bytes := List UInt8

/-! ## 1. Emitting words -/

/-- The two bytes of a 16-bit word, most significant first. -/
def be16 (v : UInt16) : Bytes :=
  [UInt8.ofNat (v.toNat / 0x100), UInt8.ofNat v.toNat]

/-- The four bytes of a 32-bit word, most significant first. -/
def be32 (v : UInt32) : Bytes :=
  [UInt8.ofNat (v.toNat / 0x1000000), UInt8.ofNat (v.toNat / 0x10000),
    UInt8.ofNat (v.toNat / 0x100), UInt8.ofNat v.toNat]

/-- The eight bytes of a 64-bit word, most significant first. -/
def be64 (v : UInt64) : Bytes :=
  be32 (UInt32.ofNat (v.toNat / 0x100000000)) ++ be32 (UInt32.ofNat v.toNat)

@[simp] theorem length_be16 (v : UInt16) : (be16 v).length = 2 := rfl

@[simp] theorem length_be32 (v : UInt32) : (be32 v).length = 4 := rfl

@[simp] theorem length_be64 (v : UInt64) : (be64 v).length = 8 := rfl

/-! ## 2. Putting words together -/

/-- The 16-bit word with the given bytes, most significant first. -/
def word16 (a b : UInt8) : UInt16 :=
  UInt16.ofNat (a.toNat * 0x100 + b.toNat)

/-- The 32-bit word with the given bytes, most significant first. -/
def word32 (a b c d : UInt8) : UInt32 :=
  UInt32.ofNat (a.toNat * 0x1000000 + b.toNat * 0x10000 + c.toNat * 0x100 + d.toNat)

/-- The 64-bit word with the given halves, the high one first. -/
def word64 (high low : UInt32) : UInt64 :=
  UInt64.ofNat (high.toNat * 0x100000000 + low.toNat)

theorem word16_be16 (v : UInt16) :
    word16 (UInt8.ofNat (v.toNat / 0x100)) (UInt8.ofNat v.toNat) = v := by
  apply UInt16.toNat_inj.1
  have := v.toNat_lt
  simp [word16]
  omega

theorem word32_be32 (v : UInt32) :
    word32 (UInt8.ofNat (v.toNat / 0x1000000)) (UInt8.ofNat (v.toNat / 0x10000))
      (UInt8.ofNat (v.toNat / 0x100)) (UInt8.ofNat v.toNat) = v := by
  apply UInt32.toNat_inj.1
  have := v.toNat_lt
  simp [word32]
  omega

theorem word64_be64 (v : UInt64) :
    word64 (UInt32.ofNat (v.toNat / 0x100000000)) (UInt32.ofNat v.toNat) = v := by
  apply UInt64.toNat_inj.1
  have := v.toNat_lt
  simp [word64]
  omega

theorem be16_word16 (a b : UInt8) : be16 (word16 a b) = [a, b] := by
  have := a.toNat_lt
  have := b.toNat_lt
  simp only [be16, word16, List.cons.injEq, and_true]
  constructor
  · apply UInt8.toNat_inj.1
    simp
    omega
  · apply UInt8.toNat_inj.1
    simp

theorem be32_word32 (a b c d : UInt8) : be32 (word32 a b c d) = [a, b, c, d] := by
  have := a.toNat_lt
  have := b.toNat_lt
  have := c.toNat_lt
  have := d.toNat_lt
  simp only [be32, word32, List.cons.injEq, and_true]
  refine ⟨?_, ?_, ?_, ?_⟩ <;> apply UInt8.toNat_inj.1 <;> simp <;> omega

end Rewire
