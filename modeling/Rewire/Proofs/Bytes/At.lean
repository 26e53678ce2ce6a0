import Mathlib
import Rewire.Bytes.Cursor
import Rewire.Code.Encode
import Rewire.Proofs.Outcome

/-!
# Bytes at a position

Where a byte string stands inside another one, the words read there are the words written there.
This file fixes

* byte strings at a position (`BytesAt`), which split where the byte string splits
  (`bytesAt_cons`, `bytesAt_append`);
* the words read at such a position (`u8At_of_bytesAt`, `u16At_of_bytesAt`, …), signed and
  unsigned.
-/

namespace Rewire

/-! ## 1. Places -/

/-- Whether a byte string stands at a position of another one. -/
def BytesAt (data : Array UInt8) (offset : Nat) (bytes : Bytes) : Prop :=
  bytes <+: data.toList.drop offset

@[simp] theorem bytesAt_nil (data : Array UInt8) (offset : Nat) : BytesAt data offset [] :=
  List.nil_prefix

theorem bytesAt_cons {data : Array UInt8} {offset : Nat} {b : UInt8} {bytes : Bytes} :
    BytesAt data offset (b :: bytes) ↔ data[offset]? = some b ∧ BytesAt data (offset + 1) bytes := by
  unfold BytesAt
  by_cases h : offset < data.toList.length
  · rw [List.drop_eq_getElem_cons h, List.cons_prefix_cons]
    have hsize : offset < data.size := by simpa using h
    rw [Array.getElem?_eq_getElem hsize, Option.some.injEq, Array.getElem_toList, eq_comm]
  · have hsize : data.size ≤ offset := by simpa using h
    rw [List.drop_eq_nil_of_le (by simpa using hsize), List.prefix_nil,
      Array.getElem?_eq_none hsize]
    simp

theorem bytesAt_append {data : Array UInt8} {offset : Nat} {bytes more : Bytes} :
    BytesAt data offset (bytes ++ more) ↔
      BytesAt data offset bytes ∧ BytesAt data (offset + bytes.length) more := by
  induction bytes generalizing offset with
  | nil => simp
  | cons b rest ih =>
    rw [List.cons_append, bytesAt_cons, bytesAt_cons, ih, List.length_cons, and_assoc,
      Nat.add_assoc, Nat.add_comm 1]

theorem BytesAt.length_le {data : Array UInt8} {offset : Nat} {bytes : Bytes}
    (h : BytesAt data offset bytes) : bytes.length ≤ data.size - offset := by
  simpa using List.IsPrefix.length_le h

/-- A byte string stands where it was put. -/
theorem bytesAt_of_append (before bytes after : Bytes) :
    BytesAt (before ++ bytes ++ after).toArray before.length bytes := by
  simp [BytesAt]

/-! ## 2. Words -/

section Words

variable {data : Array UInt8} {offset : Nat}

theorem u8At_of_bytesAt {b : UInt8} (h : BytesAt data offset [b]) : u8At data offset = .ok b := by
  rw [u8At, (bytesAt_cons.1 h).1]
  rfl

theorem u16At_of_bytesAt {v : UInt16} (h : BytesAt data offset (be16 v)) :
    u16At data offset = .ok v := by
  simp only [be16, bytesAt_cons] at h
  rw [u16At, h.1, h.2.1]
  simp only [word16_be16]

theorem u32At_of_bytesAt {v : UInt32} (h : BytesAt data offset (be32 v)) :
    u32At data offset = .ok v := by
  simp only [be32, bytesAt_cons, Nat.add_assoc] at h
  rw [u32At, h.1, h.2.1, h.2.2.1, h.2.2.2.1]
  simp only [word32_be32]

theorem i8At_of_bytesAt {n : Int8} (h : BytesAt data offset [n.toUInt8]) :
    i8At data offset = .ok n := by
  rw [i8At, u8At_of_bytesAt h]
  simp [bind, Except.bind, pure, Except.pure]

theorem i16At_of_bytesAt {n : Int16} (h : BytesAt data offset (bytes16 n)) :
    i16At data offset = .ok n := by
  rw [i16At, u16At_of_bytesAt h]
  simp [bind, Except.bind, pure, Except.pure]

theorem i32At_of_bytesAt {n : Int32} (h : BytesAt data offset (bytes32 n)) :
    i32At data offset = .ok n := by
  rw [i32At, u32At_of_bytesAt h]
  simp [bind, Except.bind, pure, Except.pure]

end Words

end Rewire
