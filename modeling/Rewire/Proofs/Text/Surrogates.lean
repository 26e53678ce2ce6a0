import Mathlib
import Rewire.Proofs.Text.Modified

/-!
# Units that are no text

A constant may hold any units, a text only surrogates in pairs. Reading units as a text therefore
loses the surrogates that have no partner. This file shows

* what the units of the text are (`units16_ofUnits16`): those that were read, with U+FFFD for each
  surrogate without a partner (`mendUnits`);
* that they are the ones that were read exactly when all surrogates come in pairs
  (`mendUnits_eq_self`).
-/

namespace Rewire

/-! ## 1. Units that are mended -/

/-- The units with the replacement character for each surrogate without a partner. -/
def mendUnits : List UInt16 → List UInt16
  | [] => []
  | u :: rest =>
    if isLeading u then
      match rest with
      | v :: rest' =>
        if isTrailing v then u :: v :: mendUnits rest' else 0xfffd :: mendUnits (v :: rest')
      | [] => [0xfffd]
    else if isTrailing u then 0xfffd :: mendUnits rest
    else u :: mendUnits rest

/-- Units in which every surrogate has its partner. -/
inductive Paired : List UInt16 → Prop where
  | nil : Paired []
  | unit {u : UInt16} {rest : List UInt16} (leading : isLeading u = false)
      (trailing : isTrailing u = false) (more : Paired rest) : Paired (u :: rest)
  | pair {u v : UInt16} {rest : List UInt16} (leading : isLeading u = true)
      (trailing : isTrailing v = true) (more : Paired rest) : Paired (u :: v :: rest)

section Units

variable {u v : UInt16}

theorem isLeading_iff : isLeading u = true ↔ 0xd800 ≤ u.toNat ∧ u.toNat < 0xdc00 := by
  simp [isLeading, UInt16.le_iff_toNat_le, UInt16.lt_iff_toNat_lt]

theorem isTrailing_iff : isTrailing u = true ↔ 0xdc00 ≤ u.toNat ∧ u.toNat < 0xe000 := by
  simp [isTrailing, UInt16.le_iff_toNat_le, UInt16.lt_iff_toNat_lt]

/-- The replacement character is a unit of its own, and no surrogate. -/
theorem not_surrogate_replacement : isLeading 0xfffd = false ∧ isTrailing 0xfffd = false := by
  decide

theorem mendUnits_cons (leading : isLeading u = false) (rest : List UInt16) :
    mendUnits (u :: rest) = (if isTrailing u then 0xfffd else u) :: mendUnits rest := by
  rw [mendUnits.eq_def]
  simp only [leading, Bool.false_eq_true, if_false]
  split
  · rfl
  · rfl

/-- **Mending changes nothing exactly where all surrogates come in pairs.** -/
theorem mendUnits_eq_self {units : List UInt16} : mendUnits units = units ↔ Paired units := by
  constructor
  · intro h
    fun_induction mendUnits units with
    | case1 => exact .nil
    | case2 u leading v rest trailing ih =>
      exact .pair leading trailing (ih (List.cons.inj (List.cons.inj h).2).2)
    | case3 u leading v rest trailing ih =>
      rw [← (List.cons.inj h).1] at leading
      rw [not_surrogate_replacement.1] at leading
      cases leading
    | case4 u leading =>
      rw [← (List.cons.inj h).1] at leading
      rw [not_surrogate_replacement.1] at leading
      cases leading
    | case5 u rest leading trailing ih =>
      rw [← (List.cons.inj h).1] at trailing
      rw [not_surrogate_replacement.2] at trailing
      cases trailing
    | case6 u rest leading trailing ih =>
      exact .unit (by simpa using leading) (by simpa using trailing) (ih (List.cons.inj h).2)
  · intro h
    induction h with
    | nil => rfl
    | unit leading trailing _ ih =>
      rw [mendUnits_cons leading, ih, trailing, if_neg Bool.false_ne_true]
    | pair leading trailing _ ih =>
      rw [mendUnits.eq_def]
      simp only [leading, trailing, ih, if_true]

/-! ## 2. Units of what was read -/

/-- A unit that is no surrogate is that of its character. -/
theorem charUnits16_ofNat (leading : isLeading u = false) (trailing : isTrailing u = false) :
    charUnits16 (Char.ofNat u.toNat) = [u] := by
  have hlt := u.toNat_lt
  have hleading := mt isLeading_iff.2 (Bool.eq_false_iff.1 leading)
  have htrailing := mt isTrailing_iff.2 (Bool.eq_false_iff.1 trailing)
  have hvalid : u.toNat.isValidChar := by
    by_cases hsmall : u.toNat < 0xd800
    · exact .inl hsmall
    · exact .inr ⟨by omega, by omega⟩
  have hchar : (Char.ofNat u.toNat).toNat = u.toNat := by
    rw [Char.toNat_ofNat, if_pos hvalid]
  rw [charUnits16, hchar, if_pos (by omega), UInt16.ofNat_toNat]

/-- A pair of surrogates is that of its character. -/
theorem charUnits16_pairedChar (leading : isLeading u = true) (trailing : isTrailing v = true) :
    charUnits16 (pairedChar u v) = [u, v] := by
  have hleading := isLeading_iff.1 leading
  have htrailing := isTrailing_iff.1 trailing
  have hchar : (pairedChar u v).toNat =
      0x10000 + (u.toNat - 0xd800) * 0x400 + (v.toNat - 0xdc00) := by
    rw [pairedChar, Char.toNat_ofNat, if_pos (.inr ⟨by omega, by omega⟩)]
  rw [charUnits16, hchar, if_neg (by omega),
    show 0xd800 + (0x10000 + (u.toNat - 0xd800) * 0x400 + (v.toNat - 0xdc00) - 0x10000) / 0x400 =
      u.toNat by omega,
    show 0xdc00 + (0x10000 + (u.toNat - 0xd800) * 0x400 + (v.toNat - 0xdc00) - 0x10000) % 0x400 =
      v.toNat by omega, UInt16.ofNat_toNat, UInt16.ofNat_toNat]

theorem units_charsOfUnitsOnto (done : List Char) (units : List UInt16) :
    (charsOfUnitsOnto done units).flatMap charUnits16 =
      done.reverse.flatMap charUnits16 ++ mendUnits units := by
  have hreplacement : charUnits16 replacementChar = [0xfffd] := by decide
  fun_induction charsOfUnitsOnto done units with
  | case1 done => rw [mendUnits, List.append_nil]
  | case2 done u leading v rest trailing ih =>
    rw [ih, mendUnits]
    simp [leading, trailing, charUnits16_pairedChar leading trailing]
  | case3 done u leading v rest trailing ih =>
    rw [ih, mendUnits]
    simp [leading, trailing, hreplacement]
  | case4 done u leading =>
    rw [mendUnits]
    simp [leading, hreplacement]
  | case5 done u rest leading trailing ih =>
    rw [ih, mendUnits_cons (by simpa using leading), if_pos trailing]
    simp [hreplacement]
  | case6 done u rest leading trailing ih =>
    rw [ih, mendUnits_cons (by simpa using leading), if_neg trailing]
    simp [charUnits16_ofNat (by simpa using leading) (by simpa using trailing)]

/-- **The units of the text that units read as** are the units, mended. -/
theorem units16_ofUnits16 (units : List UInt16) : units16 (ofUnits16 units) = mendUnits units := by
  rw [units16, ofUnits16, String.toList_ofList, units_charsOfUnitsOnto]
  rfl

end Units

end Rewire
