import Mathlib
import Rewire.Proofs.ClassFile.Codec
import Rewire.Proofs.Pool.Requests

/-!
# Class files and their bytes are the same thing

Bytes that are a class file are written back as they were, and a class file whose lists fit their
counts is read back as it was, its pool with the index included. This file fixes

* what fits (`MemberInfo.Fits`, `ClassFile.Fits`), and that it can be written
  (`ClassFile.Fits.exists_bytes`);
* both directions in one statement (`ClassFile.lossless`).

Positions are 64-bit numbers, so what is written has to be shorter than `positionLimit` to be read.
Every byte string in memory is; the format alone allows 65535 members with 65535 attributes of four
gigabytes each, which is more.
-/

namespace Rewire

/-! ## 1. What can be written -/

/-- Whether the attributes of a field or method fit their count and their lengths. -/
structure MemberInfo.Fits (m : MemberInfo) : Prop where
  count : m.attributes.length ≤ 0xffff
  attributes : ∀ a ∈ m.attributes, a.Fits

/-- Whether the lists of a class file fit their counts, and all attributes their lengths. -/
structure ClassFile.Fits (c : ClassFile) : Prop where
  interfaces : c.interfaces.length ≤ 0xffff
  fieldCount : c.fields.length ≤ 0xffff
  fields : ∀ m ∈ c.fields, m.Fits
  methodCount : c.methods.length ≤ 0xffff
  methods : ∀ m ∈ c.methods, m.Fits
  attributeCount : c.attributes.length ≤ 0xffff
  attributes : ∀ a ∈ c.attributes, a.Fits

theorem MemberInfo.Fits.exists_bytes {m : MemberInfo} (fits : m.Fits) :
    ∃ bytes, m.bytes = .ok bytes := by
  obtain ⟨attributes, hattributes⟩ := exists_attributesBytes fits.count fits.attributes
  exact ⟨_, bind_eq_ok.2 ⟨attributes, hattributes, rfl⟩⟩

theorem exists_membersBytes {members : List MemberInfo} (few : members.length ≤ 0xffff)
    (fits : ∀ m ∈ members, m.Fits) : ∃ bytes, membersBytes members = .ok bytes :=
  Reader.exists_countedBytes .countingMembers few fun m hm => (fits m hm).exists_bytes

theorem ClassFile.Fits.exists_bytes {c : ClassFile} (fits : c.Fits) :
    ∃ bytes, c.bytes = .ok bytes := by
  obtain ⟨fields, hfields⟩ := exists_membersBytes fits.fieldCount fits.fields
  obtain ⟨methods, hmethods⟩ := exists_membersBytes fits.methodCount fits.methods
  obtain ⟨attributes, hattributes⟩ := exists_attributesBytes fits.attributeCount fits.attributes
  exact ⟨_, bind_eq_ok.2 ⟨fields, hfields, bind_eq_ok.2 ⟨methods, hmethods,
    bind_eq_ok.2 ⟨attributes, hattributes, rfl⟩⟩⟩⟩

/-! ## 2. Both directions -/

namespace ClassFile

/-- **Class files are read and written without loss.** A class file is written as the bytes it was
    read from. The other way round, a class file that fits is written, and what was written is read
    as the same class file, if it is short enough for 64-bit positions. -/
theorem lossless :
    (∀ (data : Bytes) (c : ClassFile), ClassFile.read data = .ok c → c.bytes = .ok data) ∧
      ∀ c : ClassFile, c.pool.Reachable → c.Fits → ∃ data, c.bytes = .ok data ∧
        (data.length < Reader.positionLimit → ClassFile.read data = .ok c) := by
  refine ⟨fun data c h => bytes_of_read h, fun c reachable fits => ?_⟩
  obtain ⟨data, hdata⟩ := fits.exists_bytes
  exact ⟨data, hdata, read_bytes reachable.wellFormed fits.interfaces hdata⟩

end ClassFile

namespace ConstantPool.twoTexts

/-- A class with a field that has an attribute. -/
def classFile : ClassFile where
  minorVersion := 0
  majorVersion := 52
  pool := pool.push (.classRef 3)
  flags := 0x21
  thisClass := 6
  superClass := 0
  interfaces := [5]
  fields := [⟨0, 3, 4, [⟨4, [1, 2]⟩]⟩]
  methods := []
  attributes := []

theorem reachable : classFile.pool.Reachable :=
  ⟨pool, [.classRef "A"], isInitial_pool, (congrArg Prod.snd intern_class).symm⟩

theorem fits : classFile.Fits where
  interfaces := by decide
  fieldCount := by decide
  fields m hm := by
    obtain rfl := List.mem_singleton.1 hm
    refine ⟨by decide, fun a ha => ?_⟩
    obtain rfl := List.mem_singleton.1 ha
    show _ ≤ _
    decide
  methodCount := by decide
  methods := List.forall_mem_nil _
  attributeCount := by decide
  attributes := List.forall_mem_nil _

end ConstantPool.twoTexts

open ConstantPool in
/-- A class whose pool has a wide constant and a text in two slots comes back as it was. -/
theorem ClassFile.lossless_twoTexts : ∃ data, twoTexts.classFile.bytes = .ok data ∧
    ClassFile.read data = .ok twoTexts.classFile := by
  obtain ⟨data, hdata, small⟩ : ∃ data, twoTexts.classFile.bytes = .ok data ∧
      data.length < Reader.positionLimit := ⟨_, rfl, by decide⟩
  obtain ⟨data', hdata', hread⟩ := lossless.2 _ twoTexts.reachable twoTexts.fits
  obtain rfl : data = data' := Except.ok.inj (hdata.symm.trans hdata')
  exact ⟨data, lossless.1 data _ (hread small), hread small⟩

end Rewire
