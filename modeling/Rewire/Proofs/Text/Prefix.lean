import Mathlib
import Rewire.Proofs.Text.Surrogates
import Rewire.Redirect.Filter

/-!
# Starts of texts, in bytes

A text that was read from units may start with another text although the units do not start with its
units, since surrogates without a partner are replaced. ASCII characters replace nothing, and take
one byte each in UTF-8; in modified UTF-8 so do all of them but NUL. This file shows

* that units which are ASCII were there before mending (`prefix_of_mendUnits`);
* that a text of ASCII characters other than NUL (`PlainText`) has the same bytes in both encodings
  (`PlainText.toUTF8_eq`);
* so where a text starts with one of them, its bytes start with the bytes of that one
  (`PlainText.prefix_encodeUnits`).
-/

namespace Rewire

/-! ## 1. Starts of units -/

/-- No ASCII units but none at all are the start of units of which the first is not ASCII. -/
theorem eq_nil_of_prefix_cons {first rest : List UInt16} {u : UInt16}
    (ascii : ∀ v ∈ first, v.toNat < 0x80) (hu : 0x80 ≤ u.toNat) (h : first <+: u :: rest) :
    first = [] := by
  rcases List.prefix_cons_iff.1 h with rfl | ⟨more, rfl, -⟩
  · rfl
  · exact absurd (ascii u List.mem_cons_self) (Nat.not_lt.2 hu)

/-- **ASCII units at the start** are not the result of mending. -/
theorem prefix_of_mendUnits {first units : List UInt16} (ascii : ∀ u ∈ first, u.toNat < 0x80)
    (h : first <+: mendUnits units) : first <+: units := by
  -- Mended units start with a surrogate, with U+FFFD or with the unit that was there.
  fun_induction mendUnits units generalizing first with
  | case1 => exact h
  | case2 u leading v rest trailing ih =>
    have hu : 0x80 ≤ u.toNat := by
      have hrange := isLeading_iff.1 leading
      omega
    rw [eq_nil_of_prefix_cons ascii hu h]
    exact List.nil_prefix
  | case3 u leading v rest trailing ih =>
    rw [eq_nil_of_prefix_cons ascii (by decide) h]
    exact List.nil_prefix
  | case4 u leading =>
    rw [eq_nil_of_prefix_cons ascii (by decide) h]
    exact List.nil_prefix
  | case5 u rest leading trailing ih =>
    rw [eq_nil_of_prefix_cons ascii (by decide) h]
    exact List.nil_prefix
  | case6 u rest leading trailing ih =>
    rcases List.prefix_cons_iff.1 h with rfl | ⟨more, rfl, hmore⟩
    · exact List.nil_prefix
    · refine List.cons_prefix_cons.2 ⟨rfl, ih (fun v hv => ?_) hmore⟩
      exact ascii v (List.mem_cons_of_mem u hv)

/-! ## 2. Bytes of byte arrays -/

theorem loop_toList (b : ByteArray) (i : Nat) (done : List UInt8) :
    ByteArray.toList.loop b i done = done.reverse ++ b.data.toList.drop i := by
  fun_induction ByteArray.toList.loop b i done with
  | case1 i done hlt ih =>
    have hi : i < b.data.toList.length := hlt
    have hget : b.get! i = b.data.toList[i] := getElem!_pos b.data i hlt
    rw [ih, List.drop_eq_getElem_cons hi, hget, List.reverse_cons, List.append_assoc]
    rfl
  | case2 i done hge =>
    have hlength : b.data.toList.length ≤ i := Nat.le_of_not_lt hge
    rw [List.drop_eq_nil_of_le hlength, List.append_nil]

theorem toList_toByteArray (l : List UInt8) : l.toByteArray.toList = l := by
  rw [ByteArray.toList, loop_toList, List.data_toByteArray]
  rfl

/-- The bytes of a text in UTF-8 are those of its characters. -/
theorem toList_toUTF8 (s : String) : s.toUTF8.toList = s.toList.flatMap String.utf8EncodeChar := by
  have hbytes : s.toUTF8 = (s.toList.flatMap String.utf8EncodeChar).toByteArray :=
    String.utf8Encode_toList.symm
  rw [hbytes, toList_toByteArray]

/-! ## 3. ASCII without NUL -/

/-- Whether a text has no other characters than ASCII, and not NUL. -/
def PlainText (s : String) : Prop :=
  ∀ c ∈ s.toList, 0 < c.toNat ∧ c.toNat < 0x80

instance (s : String) : Decidable (PlainText s) :=
  List.decidableBAll (fun c : Char => 0 < c.toNat ∧ c.toNat < 0x80) s.toList

/-- An ASCII character is one unit. -/
theorem charUnits16_of_ascii {c : Char} (h : c.toNat < 0x80) :
    charUnits16 c = [UInt16.ofNat c.toNat] := by
  rw [charUnits16, if_pos (by omega)]

/-- An ASCII character other than NUL has the same byte in both encodings. -/
theorem encodeUnits_charUnits16 {c : Char} (hpos : 0 < c.toNat) (h : c.toNat < 0x80) :
    Modified.encodeUnits (charUnits16 c) = String.utf8EncodeChar c := by
  have hunit : (UInt16.ofNat c.toNat).toNat = c.toNat := by
    rw [UInt16.toNat_ofNat', Nat.mod_eq_of_lt (by omega)]
  have hsize : c.utf8Size = 1 := by
    rw [Char.utf8Size_eq_one_iff, UInt32.le_iff_toNat_le]
    exact Nat.le_of_lt_succ h
  rw [charUnits16_of_ascii h, String.utf8EncodeChar_eq_singleton hsize]
  show Modified.encodeUnit _ ++ [] = _
  rw [Modified.encodeUnit, hunit, if_pos ⟨Nat.ne_of_gt hpos, h⟩, Modified.marked, Nat.zero_add]
  rfl

namespace PlainText

variable {s : String}

theorem units_lt (plain : PlainText s) : ∀ u ∈ units16 s, u.toNat < 0x80 := by
  intro u hu
  obtain ⟨c, hc, hu⟩ := List.mem_flatMap.1 hu
  obtain ⟨-, hlt⟩ := plain c hc
  rw [charUnits16_of_ascii hlt, List.mem_singleton] at hu
  rw [hu, UInt16.toNat_ofNat', Nat.mod_eq_of_lt (by omega)]
  exact hlt

/-- **A plain text has the same bytes in both encodings.** -/
theorem toUTF8_eq (plain : PlainText s) : s.toUTF8.toList = Modified.encodeText s := by
  rw [toList_toUTF8, Modified.encodeText, Modified.encodeUnits, units16, List.flatMap_assoc]
  exact List.flatMap_congr fun c hc => (encodeUnits_charUnits16 (plain c hc).1 (plain c hc).2).symm

/-- **Where a text starts with a plain one**, so do the bytes of the units it was read from. -/
theorem prefix_encodeUnits (plain : PlainText s) {units : List UInt16}
    (h : startsWith (ofUnits16 units) s = true) :
    s.toUTF8.toList <+: Modified.encodeUnits units := by
  obtain ⟨more, hmore⟩ := List.isPrefixOf_iff_prefix.1 h
  have hunits : units16 s <+: mendUnits units := by
    rw [← units16_ofUnits16, units16, units16, ← hmore, List.flatMap_append]
    exact List.prefix_append _ _
  obtain ⟨after, hafter⟩ := prefix_of_mendUnits plain.units_lt hunits
  rw [plain.toUTF8_eq, ← hafter, Modified.encodeText, Modified.encodeUnits, Modified.encodeUnits,
    List.flatMap_append]
  exact List.prefix_append _ _

end PlainText

end Rewire
