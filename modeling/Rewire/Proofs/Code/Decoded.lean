import Mathlib
import Rewire.Proofs.Code.Decoding

/-!
# Instructions that were decoded

Decoded instructions are well-formed: their opcodes belong to their forms, unless the prefix for
large slots stands before an opcode it does not belong to, and the slots that are kept denote what
the instructions say. This file shows

* that the class of an opcode can be told from its format (`Format.fits_of?`);
* that decoded instructions have fitting opcodes (`opcodeFits_of_decode`), agree with the pool
  (`agreesWith_of_decode`) and have no more entries than can be counted (`entriesFit_of_decode`), and
  so have the instructions of decoded methods (`Method.opcodeFits_of_decode`,
  `Method.agreesWith_of_decode`, `Method.entriesFit_of_decode`).
-/

namespace Rewire

/-! ## 1. Formats -/

/-- Whether an opcode, or the one it stands for, is of the class its format is for. -/
def Format.Fits (op : UInt8) : Format → Prop
  | simple => Opcode.IsSimple op
  | pushByte => op = Opcode.bipush
  | pushShort => op = Opcode.sipush
  | arrayType => op = Opcode.newArray
  | var => Opcode.IsLoad op ∨ Opcode.IsStore op ∨ op = Opcode.ret
  | shortVar opcode _ => Opcode.IsLoad opcode ∨ Opcode.IsStore opcode
  | jump => Opcode.IsShortJump op
  | wideJump opcode => Opcode.IsShortJump opcode
  | field => Opcode.IsField op
  | type => Opcode.IsType op
  | _ => True

instance (op : UInt8) : DecidablePred (Format.Fits op)
  | .simple => inferInstanceAs (Decidable (Opcode.IsSimple op))
  | .pushByte => inferInstanceAs (Decidable (op = Opcode.bipush))
  | .pushShort => inferInstanceAs (Decidable (op = Opcode.sipush))
  | .arrayType => inferInstanceAs (Decidable (op = Opcode.newArray))
  | .var => inferInstanceAs (Decidable (Opcode.IsLoad op ∨ Opcode.IsStore op ∨ op = Opcode.ret))
  | .shortVar opcode _ => inferInstanceAs (Decidable (Opcode.IsLoad opcode ∨ Opcode.IsStore opcode))
  | .jump => inferInstanceAs (Decidable (Opcode.IsShortJump op))
  | .wideJump opcode => inferInstanceAs (Decidable (Opcode.IsShortJump opcode))
  | .field => inferInstanceAs (Decidable (Opcode.IsField op))
  | .type => inferInstanceAs (Decidable (Opcode.IsType op))
  | .ldc | .ldcWide _ | .iinc | .tableSwitch | .lookupSwitch | .call _ | .invokeDynamic | .wide
  | .multiANewArray => .isTrue trivial

/-- Every opcode is of the class its format is for. -/
theorem Format.fits_of? {op : UInt8} {format : Format} (h : of? op = some format) :
    format.Fits op := by
  have hall : ∀ n : Fin 256, (of? (UInt8.ofNat n)).all fun format =>
      format.Fits (UInt8.ofNat n) := by
    decide +kernel
  have := hall ⟨op.toNat, op.toNat_lt⟩
  rw [UInt8.ofNat_toNat, h] at this
  exact of_decide_eq_true this

/-! ## 2. Instructions -/

/-- The instructions that are decoded from a format and an opcode. -/
inductive Insn.DecodedAs (code : Array UInt8) (pool : ConstantPool) (labels : LabelTable)
    (offset : Nat) (op : UInt8) : Format → Insn → Prop where
  | simple : DecodedAs code pool labels offset op .simple (.simple op)
  | pushByte {n : Int8} (hn : i8At code (offset + 1) = .ok n) :
      DecodedAs code pool labels offset op .pushByte (.int op n.toInt32)
  | pushShort {n : Int16} (hn : i16At code (offset + 1) = .ok n) :
      DecodedAs code pool labels offset op .pushShort (.int op n.toInt32)
  | arrayType {n : UInt8} (hn : u8At code (offset + 1) = .ok n) :
      DecodedAs code pool labels offset op .arrayType (.int op n.toUInt32.toInt32)
  | ldc {index : UInt8} {value : Loadable} (hindex : u8At code (offset + 1) = .ok index)
      (h : decodeLoadable pool index.toUInt16 false = .ok value) :
      DecodedAs code pool labels offset op .ldc (.ldc value)
  | ldcWide {wide : Bool} {index : UInt16} {value : Loadable}
      (hindex : u16At code (offset + 1) = .ok index)
      (h : decodeLoadable pool index wide = .ok value) :
      DecodedAs code pool labels offset op (.ldcWide wide) (.ldc value)
  | var (slot : UInt16) : DecodedAs code pool labels offset op .var (.var op slot)
  | shortVar (opcode : UInt8) (slot : UInt16) :
      DecodedAs code pool labels offset op (.shortVar opcode slot) (.var opcode slot)
  | iinc (slot : UInt16) (delta : Int16) :
      DecodedAs code pool labels offset op .iinc (.iinc slot delta)
  | jump {delta : Int16} {target : Label} (hdelta : i16At code (offset + 1) = .ok delta)
      (h : jumpLabel labels offset delta.toInt = .ok target) :
      DecodedAs code pool labels offset op .jump (.jump op target)
  | wideJump {opcode : UInt8} {target : Label}
      (h : jumpLabelAt code labels offset (offset + 1) = .ok target) :
      DecodedAs code pool labels offset op (.wideJump opcode) (.jump opcode target)
  | tableSwitch {low high count : Int32} {default : Label} {targets : List Label}
      (hlow : i32At code (switchBase offset + 4) = .ok low)
      (hhigh : i32At code (switchBase offset + 8) = .ok high)
      (hcount : tableCount? low high = some count)
      (hdefault : jumpLabelAt code labels offset (switchBase offset) = .ok default)
      (htargets : (tablePositions offset count.toInt.toNat).mapM (jumpLabelAt code labels offset) =
        .ok targets) :
      DecodedAs code pool labels offset op .tableSwitch (.tableSwitch low high default targets)
  | lookupSwitch {default : Label} {pairs : List (Int32 × Label)} {count : Int32}
      (hcount : i32At code (switchBase offset + 4) = .ok count)
      (hdefault : jumpLabelAt code labels offset (switchBase offset) = .ok default)
      (hpairs : List.Forall₂
        (fun position pair => jumpLabelAt code labels offset position = .ok pair.2)
        (pairPositions offset count.toInt.toNat) pairs) :
      DecodedAs code pool labels offset op .lookupSwitch (.lookupSwitch default pairs)
  | field {index : UInt16} {m : MemberRef} (hindex : u16At code (offset + 1) = .ok index)
      (h : pool.memberRef index = .ok m) :
      DecodedAs code pool labels offset op .field (.field op m.toMember)
  | call {kind : CallKind} {index : UInt16} {m : MemberRef}
      (hindex : u16At code (offset + 1) = .ok index) (h : pool.memberRef index = .ok m) :
      DecodedAs code pool labels offset op (.call kind) (.call { m with kind })
  | invokeDynamic {index : UInt16} {i : Insn} (h : decodeComputedCall pool index = .ok i) :
      DecodedAs code pool labels offset op .invokeDynamic i
  | type {index : UInt16} {name : String} (hindex : u16At code (offset + 1) = .ok index)
      (h : pool.className index = .ok name) :
      DecodedAs code pool labels offset op .type (.type op name)
  | wideVar {inner : UInt8} {slot : UInt16} (hinner : u8At code (offset + 1) = .ok inner)
      (hslot : u16At code (offset + 2) = .ok slot) :
      DecodedAs code pool labels offset op .wide (.var inner slot)
  | wideIinc (slot : UInt16) (delta : Int16) :
      DecodedAs code pool labels offset op .wide (.iinc slot delta)
  | multiANewArray {index : UInt16} {name : String} (dimensions : UInt8)
      (hindex : u16At code (offset + 1) = .ok index) (h : pool.className index = .ok name) :
      DecodedAs code pool labels offset op .multiANewArray (.multiANewArray name dimensions)

/-- Whether the opcode of an instruction that names a local variable is one of those that do. -/
def Insn.VarFits : Insn → Prop
  | var op _ => Opcode.IsLoad op ∨ Opcode.IsStore op ∨ op = Opcode.ret
  | _ => True

section Insns

variable {code : Array UInt8} {pool : ConstantPool} {labels : LabelTable} {offset : Nat} {i : Insn}
  {op : UInt8} {format : Format}

/-- **An instruction is decoded as its format says.** -/
theorem decodedAs_of_decode (h : decodeInsn code pool labels offset = .ok i) :
    ∃ op format, Format.of? op = some format ∧ formatAt code offset = .ok format ∧
      i.DecodedAs code pool labels offset op format := by
  obtain ⟨op, format, hop, hformat, h⟩ := decodeInsn_eq_ok.1 h
  have hf : Format.of? op = some format := by
    obtain ⟨op', hop', hf⟩ := formatAt_eq_ok.1 hformat
    cases hop.symm.trans hop'
    exact hf
  refine ⟨op, format, hf, hformat, ?_⟩
  cases format with
  | simple =>
    cases h
    exact .simple
  | shortVar opcode slot =>
    cases h
    exact .shortVar opcode slot
  | pushByte =>
    obtain ⟨n, hn, h⟩ := bind_eq_ok.1 h
    cases h
    exact .pushByte hn
  | pushShort =>
    obtain ⟨n, hn, h⟩ := bind_eq_ok.1 h
    cases h
    exact .pushShort hn
  | arrayType =>
    obtain ⟨n, hn, h⟩ := bind_eq_ok.1 h
    cases h
    exact .arrayType hn
  | ldc =>
    obtain ⟨index, hindex, h⟩ := bind_eq_ok.1 h
    obtain ⟨value, hvalue, h⟩ := bind_eq_ok.1 h
    cases h
    exact .ldc hindex hvalue
  | ldcWide wide =>
    obtain ⟨index, hindex, h⟩ := bind_eq_ok.1 h
    obtain ⟨value, hvalue, h⟩ := bind_eq_ok.1 h
    cases h
    exact .ldcWide hindex hvalue
  | var =>
    obtain ⟨slot, -, h⟩ := bind_eq_ok.1 h
    cases h
    exact .var _
  | iinc =>
    obtain ⟨slot, -, h⟩ := bind_eq_ok.1 h
    obtain ⟨delta, -, h⟩ := bind_eq_ok.1 h
    cases h
    exact .iinc _ _
  | jump =>
    obtain ⟨delta, hdelta, h⟩ := bind_eq_ok.1 h
    obtain ⟨target, htarget, h⟩ := bind_eq_ok.1 h
    cases h
    exact .jump hdelta htarget
  | wideJump opcode =>
    obtain ⟨target, htarget, h⟩ := bind_eq_ok.1 h
    cases h
    exact .wideJump htarget
  | tableSwitch =>
    obtain ⟨default, hdefault, h⟩ := bind_eq_ok.1 h
    obtain ⟨low, hlow, h⟩ := bind_eq_ok.1 h
    obtain ⟨high, hhigh, h⟩ := bind_eq_ok.1 h
    obtain ⟨count, hcount, h⟩ := bind_eq_ok.1 h
    obtain ⟨targets, htargets, h⟩ := bind_eq_ok.1 h
    cases h
    exact .tableSwitch hlow hhigh (orFail_eq_ok.1 hcount) hdefault htargets
  | lookupSwitch =>
    obtain ⟨default, hdefault, h⟩ := bind_eq_ok.1 h
    obtain ⟨count, hcount, h⟩ := bind_eq_ok.1 h
    obtain ⟨pairs, hpairs, h⟩ := bind_eq_ok.1 h
    cases h
    refine .lookupSwitch hcount hdefault ((mapM_eq_ok.1 hpairs).imp fun position pair hpair => ?_)
    obtain ⟨key, -, hpair⟩ := bind_eq_ok.1 hpair
    obtain ⟨target, htarget, hpair⟩ := bind_eq_ok.1 hpair
    cases hpair
    exact htarget
  | field =>
    obtain ⟨index, hindex, h⟩ := bind_eq_ok.1 h
    obtain ⟨m, hm, h⟩ := bind_eq_ok.1 h
    cases h
    exact .field hindex (during_eq_ok.1 hm)
  | call kind =>
    obtain ⟨index, hindex, h⟩ := bind_eq_ok.1 h
    obtain ⟨m, hm, h⟩ := bind_eq_ok.1 h
    cases h
    exact .call hindex (during_eq_ok.1 hm)
  | invokeDynamic =>
    obtain ⟨index, -, h⟩ := bind_eq_ok.1 h
    exact .invokeDynamic h
  | type =>
    obtain ⟨index, hindex, h⟩ := bind_eq_ok.1 h
    obtain ⟨name, hname, h⟩ := bind_eq_ok.1 h
    cases h
    exact .type hindex (during_eq_ok.1 hname)
  | wide =>
    obtain ⟨inner, hinner, h⟩ := bind_eq_ok.1 h
    obtain ⟨slot, hslot, h⟩ := bind_eq_ok.1 h
    split at h
    · obtain ⟨delta, -, h⟩ := bind_eq_ok.1 h
      cases h
      exact .wideIinc slot delta
    · cases h
      exact .wideVar hinner hslot
  | multiANewArray =>
    obtain ⟨index, hindex, h⟩ := bind_eq_ok.1 h
    obtain ⟨name, hname, h⟩ := bind_eq_ok.1 h
    obtain ⟨dimensions, -, h⟩ := bind_eq_ok.1 h
    cases h
    exact .multiANewArray dimensions hindex (during_eq_ok.1 hname)

/-- A computed call is decoded with its slot, and agrees with the pool. -/
theorem computedCall_eq {index : UInt16} (h : decodeComputedCall pool index = .ok i) :
    ∃ name descriptor, i = .invokeDynamic index name descriptor ∧ i.AgreesWith pool := by
  obtain ⟨c, hc, h⟩ := bind_eq_ok.1 h
  cases c with
  | invokeDynamic bootstrap member =>
    obtain ⟨⟨name, descriptor⟩, hname, h⟩ := bind_eq_ok.1 h
    cases h
    exact ⟨name, descriptor, rfl, bootstrap, member, hc, hname⟩
  | _ => cases h

theorem agreesWith_of_loadable {index : UInt16} {wide : Bool} {value : Loadable}
    (h : decodeLoadable pool index wide = .ok value) : (Insn.ldc value).AgreesWith pool := by
  obtain ⟨c, hc, h⟩ := bind_eq_ok.1 h
  cases c with
  | string text =>
    obtain ⟨s, -, h⟩ := bind_eq_ok.1 h
    cases h
    trivial
  | classRef name =>
    obtain ⟨s, -, h⟩ := bind_eq_ok.1 h
    cases h
    trivial
  | methodType _ | methodHandle _ _ | dynamic _ _ =>
    cases h
    exact ⟨_, hc, trivial⟩
  | integer _ | float _ | long _ | double _ =>
    cases h
    trivial
  | _ => cases h

/-- Decoded instructions have opcodes of their forms, where those with large slots do. -/
theorem opcodeFits_of_decode (h : decodeInsn code pool labels offset = .ok i)
    (hvar : i.VarFits) : i.OpcodeFits := by
  obtain ⟨op, format, hf, -, hi⟩ := decodedAs_of_decode h
  have hfits := Format.fits_of? hf
  cases hi with
  | simple => exact hfits
  | pushByte => exact .inl hfits
  | pushShort => exact .inr (.inl hfits)
  | arrayType => exact .inr (.inr hfits)
  | var slot => exact hfits
  | shortVar opcode slot => exact hfits.elim .inl fun hstore => .inr (.inl hstore)
  | wideVar => exact hvar
  | jump => exact hfits
  | wideJump => exact hfits
  | field => exact hfits
  | type => exact hfits
  | invokeDynamic hcall =>
    obtain ⟨name, descriptor, rfl, -⟩ := computedCall_eq hcall
    trivial
  | _ => trivial

/-- Decoded instructions agree with the pool. -/
theorem agreesWith_of_decode (h : decodeInsn code pool labels offset = .ok i) :
    i.AgreesWith pool := by
  obtain ⟨op, format, -, -, hi⟩ := decodedAs_of_decode h
  cases hi with
  | ldc _ hvalue => exact agreesWith_of_loadable hvalue
  | ldcWide _ hvalue => exact agreesWith_of_loadable hvalue
  | invokeDynamic hcall =>
    obtain ⟨-, -, -, agrees⟩ := computedCall_eq hcall
    exact agrees
  | _ => trivial

/-- **Decoded instructions jump to labels of offsets.** -/
theorem label_of_decode (h : decodeInsn code pool labels offset = .ok i) {l : Label}
    (hl : l ∈ i.targets) : ∃ n, labels.at? n = some l := by
  have hget : ∀ {n : Nat} {t : Label}, labels.get n = .ok t → ∃ n, labels.at? n = some t :=
    fun ht => ⟨_, orFail_eq_ok.1 ht⟩
  have hat : ∀ {position : Nat} {t : Label}, jumpLabelAt code labels offset position = .ok t →
      ∃ n, labels.at? n = some t := by
    intro position t ht
    obtain ⟨delta, -, ht⟩ := bind_eq_ok.1 ht
    exact hget ht
  obtain ⟨op, format, -, -, hi⟩ := decodedAs_of_decode h
  cases hi with
  | jump _ htarget =>
    rw [List.mem_singleton.1 hl]
    exact hget htarget
  | wideJump htarget =>
    rw [List.mem_singleton.1 hl]
    exact hat htarget
  | tableSwitch _ _ _ hdefault htargets =>
    rcases List.mem_cons.1 hl with rfl | hl
    · exact hat hdefault
    · obtain ⟨position, -, htarget⟩ := exists_left_of_forall₂ (mapM_eq_ok.1 htargets) hl
      exact hat htarget
  | lookupSwitch _ hdefault hpairs =>
    rcases List.mem_cons.1 hl with rfl | hl
    · exact hat hdefault
    · obtain ⟨pair, hpair, rfl⟩ := List.mem_map.1 hl
      obtain ⟨position, -, htarget⟩ := exists_left_of_forall₂ hpairs hpair
      exact hat htarget
  | invokeDynamic hcall =>
    obtain ⟨name, descriptor, rfl, -⟩ := computedCall_eq hcall
    cases hl
  | _ => cases hl

/-- A decoded switch has as many entries as a signed 32-bit number says. -/
theorem entriesFit_of_decode (h : decodeInsn code pool labels offset = .ok i) : i.EntriesFit := by
  have hcount : ∀ count : Int32, count.toInt.toNat < 0x100000000 := fun count => by
    have hlt := count.toInt_lt
    omega
  obtain ⟨op, format, -, -, hi⟩ := decodedAs_of_decode h
  cases hi with
  | tableSwitch _ _ _ _ htargets =>
    have hlength := (mapM_eq_ok.1 htargets).length_eq
    rw [tablePositions, List.length_map, List.length_range] at hlength
    exact Nat.lt_of_le_of_lt hlength.ge (hcount _)
  | lookupSwitch _ _ hpairs =>
    have hlength := hpairs.length_eq
    rw [pairPositions, List.length_map, List.length_range] at hlength
    exact Nat.lt_of_le_of_lt hlength.ge (hcount _)
  | invokeDynamic hcall =>
    obtain ⟨name, descriptor, rfl, -⟩ := computedCall_eq hcall
    exact Nat.zero_lt_succ _
  | _ => exact Nat.zero_lt_succ _

/-- Only the formats of calls are decoded as calls. -/
theorem formatAt_of_call {site : CallSite}
    (h : decodeInsn code pool labels offset = .ok (.call site)) :
    ∃ kind, formatAt code offset = .ok (.call kind) := by
  obtain ⟨op, format, -, hformat, hi⟩ := decodedAs_of_decode h
  cases hi with
  | @call kind => exact ⟨kind, hformat⟩
  | invokeDynamic hcall =>
    obtain ⟨name, descriptor, heq, -⟩ := computedCall_eq hcall
    cases heq

/-- A static call is decoded where its opcode and the slot of its method are. -/
theorem decodeInsn_static {slot : UInt16} {r : MemberRef}
    (hop : u8At code offset = .ok Opcode.invokeStatic) (hslot : u16At code (offset + 1) = .ok slot)
    (hr : pool.memberRef slot = .ok r) :
    decodeInsn code pool labels offset = .ok (.call { r with kind := .static }) :=
  decodeInsn_eq_ok.2 ⟨_, .call .static, hop, formatAt_eq_ok.2 ⟨_, hop, rfl⟩,
    bind_eq_ok.2 ⟨slot, hslot, bind_eq_ok.2 ⟨r, during_eq_ok.2 hr, rfl⟩⟩⟩

end Insns

/-! ## 3. Methods -/

section Methods

variable {pool : ConstantPool} {blank m : Method} {body : Bytes}

/-- The instructions of a decoded method were decoded. -/
theorem exists_decodeInsn (h : decodeMethod pool blank body = .ok m) {i : Insn}
    (hi : i ∈ m.insns) : ∃ code labels offset, decodeInsn code pool labels offset = .ok i := by
  obtain ⟨parts, scan, offsets, nodes, handlers, locals, localTypes, -, -, -, hnodes, -, -, -, rfl⟩ :=
    decodeMethod_eq_ok.1 h
  obtain ⟨offset, -, hdecode⟩ := exists_start hnodes hi
  exact ⟨_, _, offset, hdecode⟩

/-- The instructions of decoded methods have opcodes of their forms, where those with large slots
    do. -/
theorem Method.opcodeFits_of_decode (h : decodeMethod pool blank body = .ok m)
    (hvar : ∀ i ∈ m.insns, i.VarFits) : ∀ i ∈ m.insns, i.OpcodeFits := by
  intro i hi
  obtain ⟨code, labels, offset, hdecode⟩ := exists_decodeInsn h hi
  exact Rewire.opcodeFits_of_decode hdecode (hvar i hi)

/-- **The slots that decoded methods keep** denote what their instructions say. -/
theorem Method.agreesWith_of_decode (h : decodeMethod pool blank body = .ok m) :
    ∀ i ∈ m.insns, i.AgreesWith pool := by
  intro i hi
  obtain ⟨code, labels, offset, hdecode⟩ := exists_decodeInsn h hi
  exact Rewire.agreesWith_of_decode hdecode

/-- The entries of the switches of decoded methods are counted in full. -/
theorem Method.entriesFit_of_decode (h : decodeMethod pool blank body = .ok m) : m.EntriesFit := by
  intro i hi
  obtain ⟨code, labels, offset, hdecode⟩ := exists_decodeInsn h hi
  exact Rewire.entriesFit_of_decode hdecode

end Methods

end Rewire
