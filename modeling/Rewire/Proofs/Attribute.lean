import Mathlib
import Rewire.Attribute
import Rewire.Code.Assemble
import Rewire.Proofs.Bytes.Fit
import Rewire.Proofs.Bytes.Reads
import Rewire.Proofs.Bytes.Takes

/-!
# Attributes in bytes

An attribute whose length fits four bytes is read as it was written. This file fixes

* the bytes of such an attribute (`RawAttribute.spelled`), and that it is read back
  (`reads_rawAttribute`);
* the bytes of a counted list of attributes (`attributesBytes_eq_ok`), which is read back too
  (`reads_rawAttributes`);
* that attributes are written as the bytes they were read from (`takes_rawAttributes`).
-/

namespace Rewire

open Reader

/-! ## 1. One attribute -/

/-- Whether the length of an attribute fits the four bytes it is written in. -/
def RawAttribute.Fits (a : RawAttribute) : Prop :=
  a.body.length ≤ 0xffffffff

/-- The bytes of an attribute whose length fits. -/
def RawAttribute.spelled (a : RawAttribute) : Bytes :=
  be16 a.name ++ be32 (UInt32.ofNat a.body.length) ++ a.body

theorem RawAttribute.bytes_eq_ok {a : RawAttribute} {bytes : Bytes} (h : a.bytes = .ok bytes) :
    a.Fits ∧ bytes = a.spelled := by
  obtain ⟨length, hlength, h⟩ := bind_eq_ok.1 h
  cases h
  obtain ⟨hn, hle⟩ := fitUnsigned32_eq_ok hlength
  refine ⟨hle, ?_⟩
  rw [RawAttribute.spelled, ← hn, UInt32.ofNat_toNat]

theorem reads_rawAttribute {a : RawAttribute} (fits : a.Fits) : Reads rawAttribute a.spelled a := by
  have hlength : (UInt32.ofNat a.body.length).toNat = a.body.length := toNat_ofNat32 fits
  have hbody := reads_map (RawAttribute.mk a.name) (reads_bytes a.body)
  rw [← hlength] at hbody
  unfold RawAttribute.spelled
  rw [List.append_assoc]
  exact reads_bind (reads_u16 _) (reads_bind (reads_u32 _) hbody)

/-! ## 2. Lists -/

theorem mapM_bytes_eq_ok {attributes : List RawAttribute} {chunks : List Bytes}
    (h : attributes.mapM RawAttribute.bytes = .ok chunks) :
    (∀ a ∈ attributes, a.Fits) ∧ chunks = attributes.map RawAttribute.spelled := by
  rw [mapM_eq_ok] at h
  induction h with
  | nil => exact ⟨fun a ha => (List.not_mem_nil ha).elim, rfl⟩
  | cons ha _ ih =>
    obtain ⟨hfits, hbytes⟩ := RawAttribute.bytes_eq_ok ha
    refine ⟨fun b hb => ?_, by rw [hbytes, ih.2, List.map_cons]⟩
    rcases List.mem_cons.1 hb with rfl | hb
    · exact hfits
    · exact ih.1 b hb

theorem attributesBytes_eq_ok {attributes : List RawAttribute} {bytes : Bytes}
    (h : attributesBytes attributes = .ok bytes) :
    attributes.length ≤ 0xffff ∧ (∀ a ∈ attributes, a.Fits) ∧
      bytes = offset16 attributes.length ++ attributes.flatMap RawAttribute.spelled := by
  obtain ⟨count, hcount, h⟩ := bind_eq_ok.1 h
  obtain ⟨chunks, hchunks, h⟩ := bind_eq_ok.1 h
  cases h
  obtain ⟨hn, hle⟩ := fitUnsigned16_eq_ok hcount
  have hspelled := mapM_bytes_eq_ok hchunks
  refine ⟨hle, hspelled.1, ?_⟩
  rw [hspelled.2, ← List.flatMap_def, offset16, ← hn, UInt16.ofNat_toNat]

theorem length_spelled_le {attributes : List RawAttribute} (fits : ∀ a ∈ attributes, a.Fits) :
    (attributes.flatMap RawAttribute.spelled).length ≤ attributes.length * 0x100000005 := by
  induction attributes with
  | nil => exact Nat.le_refl 0
  | cons a rest ih =>
    have ha : a.body.length ≤ 0xffffffff := fits a List.mem_cons_self
    have hrest := ih fun b hb => fits b (List.mem_cons_of_mem _ hb)
    rw [List.flatMap_cons, List.length_append, List.length_cons, RawAttribute.spelled]
    simp only [List.length_append, length_be16, length_be32]
    omega

/-- **A counted list of attributes is read as it was written.** -/
theorem reads_rawAttributes {attributes : List RawAttribute} {bytes : Bytes}
    (h : attributesBytes attributes = .ok bytes) : Reads rawAttributes bytes attributes := by
  obtain ⟨few, fits, rfl⟩ := attributesBytes_eq_ok h
  have hread := reads_times id fun a ha => reads_rawAttribute (fits a ha)
  rw [List.map_id] at hread
  have hcount : (UInt16.ofNat attributes.length).toNat = attributes.length := toNat_ofNat16 few
  rw [← hcount] at hread
  exact reads_u16_bind _ hread

/-! ## 3. Attributes that were read -/

/-- An attribute is written as the bytes it was read from. -/
theorem takes_rawAttribute : Takes rawAttribute fun a bytes => a.bytes = .ok bytes := by
  refine takes_bind takes_u16 fun name x hx => takes_bind takes_u32 fun length y hy =>
    takes_map (RawAttribute.mk name) (takes_bytes _) fun body z ⟨hz, hlength⟩ => ?_
  refine bind_eq_ok.2 ⟨length, ?_, ?_⟩
  · rw [hlength]
    exact fitUnsigned32_toNat _ length
  · rw [hx, hy, hz, ← List.append_assoc]
    rfl

/-- **A counted list of attributes** is written as the bytes it was read from. -/
theorem takes_rawAttributes :
    Takes rawAttributes fun attributes bytes => attributesBytes attributes = .ok bytes :=
  takes_counted .countingAttributes takes_rawAttribute

theorem RawAttribute.Fits.exists_bytes {a : RawAttribute} (fits : a.Fits) :
    ∃ bytes, a.bytes = .ok bytes := by
  have hlength : (UInt32.ofNat a.body.length).toNat = a.body.length := toNat_ofNat32 fits
  have hfit := fitUnsigned32_toNat .measuringAttribute (UInt32.ofNat a.body.length)
  rw [hlength] at hfit
  exact ⟨_, bind_eq_ok.2 ⟨_, hfit, rfl⟩⟩

/-- Attributes are written if there are few enough and their lengths fit. -/
theorem exists_attributesBytes {attributes : List RawAttribute} (few : attributes.length ≤ 0xffff)
    (fits : ∀ a ∈ attributes, a.Fits) : ∃ bytes, attributesBytes attributes = .ok bytes :=
  exists_countedBytes .countingAttributes few fun a ha => (fits a ha).exists_bytes

end Rewire
