import Mathlib
import Rewire.Text.Modified
import Rewire.Proofs.Outcome

/-!
# Encoded text is read back

Encoding a text and decoding it gives the text again. The two levels of the encoding are undone one
after another:

* a unit is read back from its bytes (`decodeUnitsOnto_encodeUnit`), and so are the units of a
  sequence (`decodeUnits_encodeUnits`);
* a character is read back from its units (`charsOfUnitsOnto_charUnits16`), and so is a text
  (`ofUnits16_units16`);
* a text is read back from its bytes (`decodeText_encodeText`), so texts with the same bytes are
  the same (`encodeText_inj`);
* no byte of a text is zero or begins a character of four bytes (`bytes_encodeText`).
-/

namespace Rewire

/-! ## 1. Units in bytes -/

namespace Modified

theorem marked_toNat {mark n : Nat} (h : mark + n < 0x100) : (marked mark n).toNat = mark + n := by
  rw [marked, UInt8.toNat_ofNat', Nat.mod_eq_of_lt h]

theorem continuation_marked {n : Nat} (h : n < 0x40) : continuation (marked 0x80 n) = n := by
  rw [continuation, marked_toNat (by omega)]
  omega

/-- A unit is read back from its bytes. -/
theorem decodeUnitsOnto_encodeUnit (done : List UInt16) (u : UInt16) (rest : Bytes) :
    decodeUnitsOnto done (encodeUnit u ++ rest) = decodeUnitsOnto (u :: done) rest := by
  have hlt := u.toNat_lt
  unfold encodeUnit
  by_cases h₁ : u.toNat ≠ 0 ∧ u.toNat < 0x80
  · have hbyte : (marked 0 u.toNat).toNat = u.toNat := by
      rw [marked_toNat (by omega), Nat.zero_add]
    have hunit : (marked 0 u.toNat).toUInt16 = u := by
      rw [← UInt16.toNat_inj, UInt8.toNat_toUInt16, hbyte]
    rw [if_pos h₁, List.singleton_append, decodeUnitsOnto.eq_def]
    simp only
    rw [if_pos (by rw [UInt8.lt_iff_toNat_lt, hbyte]; exact h₁.2), hunit]
  by_cases h₂ : u.toNat < 0x800
  · have hhead : (marked 0xc0 (u.toNat / 0x40)).toNat = 0xc0 + u.toNat / 0x40 :=
      marked_toNat (by omega)
    simp only [if_neg h₁, if_pos h₂, List.cons_append, List.nil_append, decodeUnitsOnto,
      UInt8.lt_iff_toNat_lt, hhead, UInt8.reduceToNat]
    rw [if_neg (by omega), if_neg (by omega), if_pos (by omega),
      continuation_marked (Nat.mod_lt _ (by decide)),
      show (0xc0 + u.toNat / 0x40) % 0x20 * 0x40 + u.toNat % 0x40 = u.toNat by omega,
      UInt16.ofNat_toNat]
  · have hhead : (marked 0xe0 (u.toNat / 0x1000)).toNat = 0xe0 + u.toNat / 0x1000 :=
      marked_toNat (by omega)
    simp only [if_neg h₁, if_neg h₂, List.cons_append, List.nil_append, decodeUnitsOnto,
      UInt8.lt_iff_toNat_lt, hhead, UInt8.reduceToNat]
    rw [if_neg (by omega), if_neg (by omega), if_neg (by omega), if_pos (by omega),
      continuation_marked (Nat.mod_lt _ (by decide)), continuation_marked (Nat.mod_lt _ (by decide)),
      show (0xe0 + u.toNat / 0x1000) % 0x10 * 0x1000 + u.toNat / 0x40 % 0x40 * 0x40 +
        u.toNat % 0x40 = u.toNat by omega,
      UInt16.ofNat_toNat]

theorem decodeUnitsOnto_encodeUnits (done units : List UInt16) :
    decodeUnitsOnto done (encodeUnits units) = .ok (done.reverse ++ units) := by
  induction units generalizing done with
  | nil => simp [encodeUnits, decodeUnitsOnto]
  | cons u rest ih =>
    rw [encodeUnits, List.flatMap_cons, decodeUnitsOnto_encodeUnit, ← encodeUnits, ih,
      List.reverse_cons, List.append_assoc, List.singleton_append]

theorem decodeUnits_encodeUnits (units : List UInt16) :
    decodeUnits (encodeUnits units) = .ok units := by
  rw [decodeUnits, decodeUnitsOnto_encodeUnits]
  rfl

end Modified

/-! ## 2. Characters in units -/

/-- A character is no surrogate. -/
theorem not_surrogate (c : Char) : c.toNat < 0xd800 ∨ 0xe000 ≤ c.toNat := by
  rcases c.valid with h | h
  · exact .inl h
  · exact .inr (Nat.succ_le_of_lt h.1)

/-- A character is read back from its units. -/
theorem charsOfUnitsOnto_charUnits16 (done : List Char) (c : Char) (rest : List UInt16) :
    charsOfUnitsOnto done (charUnits16 c ++ rest) = charsOfUnitsOnto (c :: done) rest := by
  have hvalid : c.toNat < 0x110000 := by
    rcases c.valid with h | h
    · exact Nat.lt_trans h (by decide)
    · exact h.2
  unfold charUnits16
  by_cases hsmall : c.toNat < 0x10000
  · have hunit : (UInt16.ofNat c.toNat).toNat = c.toNat := by
      rw [UInt16.toNat_ofNat', Nat.mod_eq_of_lt hsmall]
    have hsurrogate := not_surrogate c
    have hleading : isLeading (UInt16.ofNat c.toNat) = false := by
      simp only [isLeading, UInt16.le_iff_toNat_le, UInt16.lt_iff_toNat_lt, hunit,
        UInt16.reduceToNat, Bool.and_eq_false_iff, decide_eq_false_iff_not]
      omega
    have htrailing : isTrailing (UInt16.ofNat c.toNat) = false := by
      simp only [isTrailing, UInt16.le_iff_toNat_le, UInt16.lt_iff_toNat_lt, hunit,
        UInt16.reduceToNat, Bool.and_eq_false_iff, decide_eq_false_iff_not]
      omega
    rw [if_pos hsmall, List.singleton_append, charsOfUnitsOnto.eq_def]
    simp only [hleading, htrailing, Bool.false_eq_true, if_false]
    rw [hunit, Char.ofNat_toNat]
  · have hhigh : (UInt16.ofNat (0xd800 + (c.toNat - 0x10000) / 0x400)).toNat =
        0xd800 + (c.toNat - 0x10000) / 0x400 := by
      rw [UInt16.toNat_ofNat', Nat.mod_eq_of_lt (by omega)]
    have hlow : (UInt16.ofNat (0xdc00 + (c.toNat - 0x10000) % 0x400)).toNat =
        0xdc00 + (c.toNat - 0x10000) % 0x400 := by
      rw [UInt16.toNat_ofNat', Nat.mod_eq_of_lt (by omega)]
    have hleading : isLeading (UInt16.ofNat (0xd800 + (c.toNat - 0x10000) / 0x400)) = true := by
      simp only [isLeading, UInt16.le_iff_toNat_le, UInt16.lt_iff_toNat_lt, hhigh,
        UInt16.reduceToNat, Bool.and_eq_true, decide_eq_true_eq]
      omega
    have htrailing : isTrailing (UInt16.ofNat (0xdc00 + (c.toNat - 0x10000) % 0x400)) = true := by
      simp only [isTrailing, UInt16.le_iff_toNat_le, UInt16.lt_iff_toNat_lt, hlow,
        UInt16.reduceToNat, Bool.and_eq_true, decide_eq_true_eq]
      omega
    rw [if_neg hsmall, List.cons_append, List.singleton_append, charsOfUnitsOnto]
    simp only [hleading, htrailing, if_true]
    rw [pairedChar, hhigh, hlow,
      show 0x10000 + (0xd800 + (c.toNat - 0x10000) / 0x400 - 0xd800) * 0x400 +
        (0xdc00 + (c.toNat - 0x10000) % 0x400 - 0xdc00) = c.toNat by omega,
      Char.ofNat_toNat]

theorem charsOfUnitsOnto_units (done chars : List Char) :
    charsOfUnitsOnto done (chars.flatMap charUnits16) = done.reverse ++ chars := by
  induction chars generalizing done with
  | nil => simp [charsOfUnitsOnto]
  | cons c rest ih =>
    rw [List.flatMap_cons, charsOfUnitsOnto_charUnits16, ih, List.reverse_cons, List.append_assoc,
      List.singleton_append]

theorem ofUnits16_units16 (s : String) : ofUnits16 (units16 s) = s := by
  rw [ofUnits16, units16, charsOfUnitsOnto_units, List.reverse_nil, List.nil_append,
    String.ofList_toList]

/-! ## 3. Texts in bytes -/

namespace Modified

/-- **A text is read back from its bytes.** -/
theorem decodeText_encodeText (s : String) : decodeText (encodeText s) = .ok s := by
  rw [decodeText, encodeText, decodeUnits_encodeUnits]
  exact congrArg Except.ok (ofUnits16_units16 s)

theorem encodeText_inj {s t : String} : encodeText s = encodeText t ↔ s = t := by
  constructor
  · intro h
    have hs := decodeText_encodeText s
    rw [h, decodeText_encodeText] at hs
    exact (Except.ok.inj hs).symm
  · rintro rfl
    rfl

/-! ## 4. The bytes of a text -/

theorem marked_bounds {mark n : Nat} (hpos : 0 < mark + n) (hlt : mark + n < 0xf0) :
    marked mark n ≠ 0 ∧ marked mark n < 0xf0 := by
  have hbyte : (marked mark n).toNat = mark + n := marked_toNat (Nat.lt_trans hlt (by decide))
  constructor
  · intro h
    rw [h] at hbyte
    exact absurd hbyte (Nat.ne_of_lt hpos)
  · rw [UInt8.lt_iff_toNat_lt, hbyte]
    exact hlt

/-- The bytes of a unit, in each of the three lengths. -/
theorem bytes_encodeUnit (u : UInt16) : ∀ b ∈ encodeUnit u, b ≠ 0 ∧ b < 0xf0 := by
  have hlt := u.toNat_lt
  unfold encodeUnit
  simp only
  split
  · exact List.forall_mem_singleton.2 (marked_bounds (by omega) (by omega))
  split
  · rw [List.forall_mem_cons, List.forall_mem_singleton]
    exact ⟨marked_bounds (by omega) (by omega), marked_bounds (by omega) (by omega)⟩
  · rw [List.forall_mem_cons, List.forall_mem_cons, List.forall_mem_singleton]
    exact ⟨marked_bounds (by omega) (by omega), marked_bounds (by omega) (by omega),
      marked_bounds (by omega) (by omega)⟩

theorem bytes_encodeText (s : String) : ∀ b ∈ encodeText s, b ≠ 0 ∧ b < 0xf0 := by
  intro b hb
  obtain ⟨u, -, hb⟩ := List.mem_flatMap.1 hb
  exact bytes_encodeUnit u b hb

end Modified

end Rewire
