import Mathlib
import Rewire.Bytes.Fit
import Rewire.Proofs.Outcome

/-!
# Numbers that fitted

A number that was written as a word is in the word's range, and the word stands for it. This file
shows

* so for each width (`fitUnsigned16_eq_ok`, `fitSigned8_eq_ok`, …);
* that a word in the range of a byte is the same word after it was written as one
  (`toUInt16_toUInt8`, `toInt16_toInt8`, `toInt_toUInt32`);
* that arithmetic on words has the result it has on numbers, or none (`addWord16_eq_ok`,
  `addWord32_eq_ok`, `timesWord32_eq_ok`, `addInt32?_eq_some`, `subInt32?_eq_some`).
-/

namespace Rewire

/-! ## 1. Checked numbers -/

theorem bounds_of_fitRange {a : Activity} {least greatest n k : Int}
    (h : fitRange a least greatest n = .ok k) : k = n ∧ least ≤ n ∧ n ≤ greatest := by
  unfold fitRange at h
  split at h
  · cases h
  split at h
  · cases h
  cases h
  omega

section Unsigned

variable {a : Activity} {n : Nat}

theorem fitUnsigned16_eq_ok {v : UInt16} (h : fitUnsigned16 a n = .ok v) :
    v.toNat = n ∧ n ≤ 0xffff := by
  obtain ⟨k, hk, hv⟩ := bind_eq_ok.1 h
  obtain ⟨rfl, -, hle⟩ := bounds_of_fitRange hk
  cases hv
  rw [UInt16.toNat_ofNat']
  omega

theorem fitUnsigned32_eq_ok {v : UInt32} (h : fitUnsigned32 a n = .ok v) :
    v.toNat = n ∧ n ≤ 0xffffffff := by
  obtain ⟨k, hk, hv⟩ := bind_eq_ok.1 h
  obtain ⟨rfl, -, hle⟩ := bounds_of_fitRange hk
  cases hv
  rw [UInt32.toNat_ofNat']
  omega

/-- A word is in its own range. -/
theorem fitUnsigned16_toNat (a : Activity) (v : UInt16) : fitUnsigned16 a v.toNat = .ok v := by
  have hlt := v.toNat_lt
  unfold fitUnsigned16
  rw [fitRange_eq_ok (by omega) (by omega)]
  exact congrArg Except.ok (UInt16.ofNat_toNat)

theorem fitUnsigned32_toNat (a : Activity) (v : UInt32) : fitUnsigned32 a v.toNat = .ok v := by
  have hlt := v.toNat_lt
  unfold fitUnsigned32
  rw [fitRange_eq_ok (by omega) (by omega)]
  exact congrArg Except.ok (UInt32.ofNat_toNat)

end Unsigned

section Signed

variable {a : Activity} {n : Int}

theorem fitSigned8_eq_ok {v : Int8} (h : fitSigned8 a n = .ok v) : v.toInt = n := by
  obtain ⟨k, hk, hv⟩ := bind_eq_ok.1 h
  obtain ⟨rfl, hge, hle⟩ := bounds_of_fitRange hk
  cases hv
  exact Int8.toInt_ofInt_of_le hge (Int.lt_add_one_of_le hle)

theorem fitSigned16_eq_ok {v : Int16} (h : fitSigned16 a n = .ok v) : v.toInt = n := by
  obtain ⟨k, hk, hv⟩ := bind_eq_ok.1 h
  obtain ⟨rfl, hge, hle⟩ := bounds_of_fitRange hk
  cases hv
  exact Int16.toInt_ofInt_of_le hge (Int.lt_add_one_of_le hle)

theorem fitSigned32_eq_ok {v : Int32} (h : fitSigned32 a n = .ok v) : v.toInt = n := by
  obtain ⟨k, hk, hv⟩ := bind_eq_ok.1 h
  obtain ⟨rfl, hge, hle⟩ := bounds_of_fitRange hk
  cases hv
  exact Int32.toInt_ofInt_of_le hge (Int.lt_add_one_of_le hle)

end Signed

/-! ## 2. Words in one byte -/

theorem toUInt16_toUInt8 {n : UInt16} (h : n ≤ 255) : n.toUInt8.toUInt16 = n := by
  have hle : n.toNat ≤ 255 := h
  rw [← UInt16.toNat_inj, UInt8.toNat_toUInt16, UInt16.toNat_toUInt8]
  omega

theorem toInt16_toInt8 {n : Int16} (hge : -128 ≤ n.toInt) (hle : n.toInt ≤ 127) :
    n.toInt8.toInt16 = n := by
  rw [← Int16.toInt_inj, Int8.toInt_toInt16, Int16.toInt_toInt8]
  exact Int.bmod_eq_of_le (by omega) (by omega)

theorem toInt_toUInt32 (n : UInt8) : n.toUInt32.toInt32.toInt = n.toNat := by
  have hlt := n.toNat_lt
  show n.toUInt32.toBitVec.toInt = n.toNat
  rw [BitVec.toInt_eq_toNat_of_lt]
  · rw [UInt32.toNat_toBitVec, UInt8.toNat_toUInt32]
  · rw [UInt32.toNat_toBitVec, UInt8.toNat_toUInt32]
    omega

theorem toNat_ofNat16 {n : Nat} (h : n ≤ 0xffff) : (UInt16.ofNat n).toNat = n := by
  rw [UInt16.toNat_ofNat']
  omega

theorem fitUnsigned16_of_le (a : Activity) {n : Nat} (h : n ≤ 0xffff) :
    fitUnsigned16 a n = .ok (UInt16.ofNat n) := by
  have hword := fitUnsigned16_toNat a (UInt16.ofNat n)
  rwa [toNat_ofNat16 h] at hword

theorem toNat_ofNat32 {n : Nat} (h : n ≤ 0xffffffff) : (UInt32.ofNat n).toNat = n := by
  rw [UInt32.toNat_ofNat']
  omega

/-! ## 3. Arithmetic -/

theorem addWord16_eq_ok {a b c : UInt16} :
    addWord16 a b = .ok c ↔ c.toNat = a.toNat + b.toNat := by
  have hc := c.toNat_lt
  unfold addWord16
  split
  · rw [Except.ok.injEq, eq_comm, ← UInt16.toNat_inj, UInt16.toNat_add]
    omega
  · exact iff_of_false nofun (by omega)

theorem addWord32_eq_ok {a b c : UInt32} :
    addWord32 a b = .ok c ↔ c.toNat = a.toNat + b.toNat := by
  have hc := c.toNat_lt
  unfold addWord32
  split
  · rw [Except.ok.injEq, eq_comm, ← UInt32.toNat_inj, UInt32.toNat_add]
    omega
  · exact iff_of_false nofun (by omega)

theorem timesWord32_eq_ok {a b c : UInt32} :
    timesWord32 a b = .ok c ↔ c.toNat = a.toNat * b.toNat := by
  have hc := c.toNat_lt
  unfold timesWord32
  split
  · rw [Except.ok.injEq, eq_comm, ← UInt32.toNat_inj, UInt32.toNat_mul]
    omega
  · exact iff_of_false nofun (by omega)

theorem asInt32?_eq_some {n : Int} {k : Int32} : asInt32? n = some k ↔ k.toInt = n := by
  have hge := k.le_toInt
  have hlt := k.toInt_lt
  unfold asInt32?
  split
  · rename_i h
    rw [Option.some.injEq, ← Int32.toInt_inj, Int32.toInt_ofInt_of_le h.1 (Int.lt_add_one_of_le h.2)]
    exact eq_comm
  · exact iff_of_false nofun (by omega)

theorem addInt32?_eq_some {a b k : Int32} :
    addInt32? a b = some k ↔ k.toInt = a.toInt + b.toInt :=
  asInt32?_eq_some

theorem subInt32?_eq_some {a b k : Int32} :
    subInt32? a b = some k ↔ k.toInt = a.toInt - b.toInt :=
  asInt32?_eq_some

end Rewire
