import Mathlib
import Rewire.Code.Resolved
import Rewire.Proofs.Bytes.At
import Rewire.Proofs.Bytes.Fit
import Rewire.Proofs.Code.Formats
import Rewire.Proofs.Code.Operands

/-!
# Instructions are read back

Where the bytes of an instruction stand in code, the instruction is read back, with the offsets of
its targets in place of its labels. This file fixes

* what it means that an instruction stands at an offset (`Insn.StandsAt`): its length, the offsets
  it jumps to and the decoded instruction are as they should be;
* each form of instruction stands where its bytes are (`standsAt_simple`, `standsAt_var`, …);
* code cut into the instructions that stand in it (`Cut`), which are one for every instruction
  written and two for a wide condition (`cut_encode`).
-/

namespace Rewire

/-! ## 1. Instructions at an offset -/

/-- Whether the bytes at an offset have the length and the targets of an instruction whose labels
    are offsets. -/
structure Insn.TakesUp (code : Array UInt8) (offset length : Nat) (i : Insn) : Prop where
  pos : 0 < length
  inside : offset + length ≤ code.size
  length_eq : insnLength code offset = .ok length
  targets_eq : branchTargets code offset =
    i.targets.mapM fun t => branchTarget code offset ((t.id : Int) - offset)

/-- Whether an instruction whose labels are offsets stands at an offset. -/
structure Insn.StandsAt (code : Array UInt8) (pool : ConstantPool) (offset length : Nat)
    (i : Insn) : Prop extends i.TakesUp code offset length where
  insn_eq : ∀ (labels : LabelTable) (place : Label → Label),
    (∀ t ∈ i.targets, labels.at? t.id = some (place t)) →
      decodeInsn code pool labels offset = .ok (i.mapLabels place)

/-- Whether an instruction tells which call stands at an offset, if there is one. Slots that are not
    looked up may denote anything else. -/
structure Insn.TellsCall (code : Array UInt8) (pool : ConstantPool) (offset length : Nat)
    (i : Insn) : Prop extends i.TakesUp code offset length where
  call_eq : ∀ (labels : LabelTable) (site : CallSite),
    (∀ t ∈ i.targets, ∃ l, labels.at? t.id = some l) →
      decodeInsn code pool labels offset = .ok (.call site) → i = .call site

/-- Whether the instructions listed with their offsets follow one another between two offsets, each
    with its length as `P` says. -/
inductive CutBy (P : Nat → Nat → Insn → Prop) : Nat → List (Nat × Insn) → Nat → Prop where
  | nil (offset : Nat) : CutBy P offset [] offset
  | cons {offset length stop : Nat} {i : Insn} {rest : List (Nat × Insn)}
      (h : P offset length i) (hrest : CutBy P (offset + length) rest stop) :
      CutBy P offset ((offset, i) :: rest) stop

/-- Whether instructions stand one after another between two offsets. -/
abbrev Cut (code : Array UInt8) (pool : ConstantPool) :
    Nat → List (Nat × Insn) → Nat → Prop :=
  CutBy fun offset length i => i.StandsAt code pool offset length

/-- Whether code has the lengths and targets of instructions between two offsets. -/
abbrev Outline (code : Array UInt8) : Nat → List (Nat × Insn) → Nat → Prop :=
  CutBy fun offset length i => i.TakesUp code offset length

theorem CutBy.mono {P Q : Nat → Nat → Insn → Prop} {a b : Nat} {s : List (Nat × Insn)}
    (hPQ : ∀ offset length i, P offset length i → Q offset length i) (h : CutBy P a s b) :
    CutBy Q a s b := by
  induction h with
  | nil offset => exact .nil offset
  | cons hi _ ih => exact .cons (hPQ _ _ _ hi) ih

theorem Cut.outline {code : Array UInt8} {pool : ConstantPool} {a b : Nat}
    {s : List (Nat × Insn)} (h : Cut code pool a s b) : Outline code a s b :=
  h.mono fun _ _ _ hi => hi.toTakesUp

section

variable {code : Array UInt8} {pool : ConstantPool} {offset : Nat} {operand : UInt16} {op : UInt8}
  {bytes : Bytes}

theorem BytesAt.inside (h : BytesAt code offset bytes) (some : 0 < bytes.length) :
    offset + bytes.length ≤ code.size := by
  have := h.length_le
  omega

theorem u8At_eq (h : BytesAt code offset (op :: bytes)) : u8At code offset = .ok op :=
  u8At_of_bytesAt (bytesAt_cons.2 ⟨(bytesAt_cons.1 h).1, bytesAt_nil _ _⟩)

theorem formatAt_eq {format : Format} (h : BytesAt code offset (op :: bytes))
    (hf : Format.of? op = some format) : formatAt code offset = .ok format := by
  exact bind_eq_ok.2 ⟨op, u8At_eq h, by rw [hf]; rfl⟩

/-- The length of the instructions of a format without jumps, if it is the same for all of them. -/
theorem length_of_fixed {format : Format} {length : Nat}
    (hformat : formatAt code offset = .ok format) (hfixed : format.fixedLength? = some length)
    (plain : format.branches = false) :
    insnLength code offset = .ok length ∧ branchTargets code offset = .ok [] := by
  refine ⟨insnLength_eq_ok.2 ⟨_, hformat, Format.length_of_fixed hfixed⟩, ?_⟩
  rw [branchTargets_eq hformat, Format.targets_of_not_branches plain]

/-- An instruction without labels stands where it is read. -/
theorem standsAt_plain {i : Insn} {length : Nat} (pos : 0 < length)
    (inside : offset + length ≤ code.size) (hlength : insnLength code offset = .ok length)
    (htargets : branchTargets code offset = .ok []) (plain : i.targets = [])
    (same : ∀ place, i.mapLabels place = i)
    (hinsn : ∀ labels, decodeInsn code pool labels offset = .ok i) :
    i.StandsAt code pool offset length where
  pos := pos
  inside := inside
  length_eq := hlength
  targets_eq := by
    rw [htargets, plain]
    rfl
  insn_eq labels place _ := by
    rw [hinsn labels, same place]

/-- An instruction of a format of fixed length stands where its bytes are. -/
theorem standsAt_fixed {i : Insn} {format : Format} (hat : BytesAt code offset (op :: bytes))
    (hf : Format.of? op = some format)
    (hfixed : format.fixedLength? = some (op :: bytes).length)
    (short : format.branches = false) (plain : i.targets = [])
    (same : ∀ place, i.mapLabels place = i)
    (hinsn : u8At code offset = .ok op → formatAt code offset = .ok format →
      ∀ labels, decodeInsn code pool labels offset = .ok i) :
    i.StandsAt code pool offset (op :: bytes).length := by
  have hformat := formatAt_eq hat hf
  obtain ⟨hlength, htargets⟩ := length_of_fixed hformat hfixed short
  exact standsAt_plain (Nat.succ_pos _) (hat.inside (Nat.succ_pos _)) hlength htargets plain same
    (hinsn (u8At_eq hat) hformat)

/-! ## 2. Instructions without labels -/

theorem standsAt_simple (hat : BytesAt code offset [op]) (form : Opcode.IsSimple op) :
    (Insn.simple op).StandsAt code pool offset 1 :=
  standsAt_fixed hat (Format.of?_simple form) rfl rfl rfl (fun _ => rfl) fun hop hformat _ =>
    decodeInsn_eq_ok.2 ⟨_, _, hop, hformat, rfl⟩

theorem standsAt_int {value : Int32} (h : encodeInt op value = .ok bytes)
    (hat : BytesAt code offset bytes)
    (form : op = Opcode.bipush ∨ op = Opcode.sipush ∨ op = Opcode.newArray) :
    (Insn.int op value).StandsAt code pool offset bytes.length := by
  unfold encodeInt at h
  rcases form with rfl | rfl | rfl
  · obtain ⟨n, hn, hbytes⟩ := bind_eq_ok.1 h
    cases hbytes
    have hvalue := i8At_of_bytesAt (bytesAt_cons.1 hat).2
    have hback : n.toInt32 = value := by
      rw [← Int32.toInt_inj, Int8.toInt_toInt32]
      exact fitSigned8_eq_ok hn
    refine standsAt_fixed hat rfl rfl rfl rfl (fun _ => rfl) fun hop hformat _ => ?_
    rw [← hback]
    exact decodeInsn_eq_ok.2 ⟨_, _, hop, hformat, bind_eq_ok.2 ⟨_, hvalue, rfl⟩⟩
  · obtain ⟨n, hn, hbytes⟩ := bind_eq_ok.1 h
    cases hbytes
    have hvalue := i16At_of_bytesAt (bytesAt_cons.1 hat).2
    have hback : n.toInt32 = value := by
      rw [← Int32.toInt_inj, Int16.toInt_toInt32]
      exact fitSigned16_eq_ok hn
    refine standsAt_fixed hat rfl rfl rfl rfl (fun _ => rfl) fun hop hformat _ => ?_
    rw [← hback]
    exact decodeInsn_eq_ok.2 ⟨_, _, hop, hformat, bind_eq_ok.2 ⟨_, hvalue, rfl⟩⟩
  · obtain ⟨n, hn, hbytes⟩ := bind_eq_ok.1 h
    cases hbytes
    have hvalue := u8At_of_bytesAt (bytesAt_cons.1 hat).2
    have hback : n.toUInt32.toInt32 = value := by
      obtain ⟨k, hk, hv⟩ := bind_eq_ok.1 hn
      obtain ⟨rfl, hge, hle⟩ := bounds_of_fitRange hk
      cases hv
      rw [← Int32.toInt_inj, toInt_toUInt32, UInt8.toNat_ofNat']
      omega
    refine standsAt_fixed hat rfl rfl rfl rfl (fun _ => rfl) fun hop hformat _ => ?_
    rw [← hback]
    exact decodeInsn_eq_ok.2 ⟨_, _, hop, hformat, bind_eq_ok.2 ⟨_, hvalue, rfl⟩⟩

theorem standsAt_ldc {value : Loadable} (hat : BytesAt code offset (encodeLdc value operand))
    (hvalue : decodeLoadable pool operand value.isWide = .ok value) :
    (Insn.ldc value).StandsAt code pool offset (encodeLdc value operand).length := by
  unfold encodeLdc at hat ⊢
  cases hwide : value.isWide with
  | true =>
    rw [hwide] at hvalue
    simp only [hwide, if_true] at hat ⊢
    have hindex := u16At_of_bytesAt (bytesAt_cons.1 hat).2
    exact standsAt_fixed hat rfl rfl rfl rfl (fun _ => rfl) fun hop hformat _ =>
      decodeInsn_eq_ok.2 ⟨_, _, hop, hformat, bind_eq_ok.2 ⟨_, hindex,
        bind_eq_ok.2 ⟨_, hvalue, rfl⟩⟩⟩
  | false =>
    rw [hwide] at hvalue
    simp only [hwide, Bool.false_eq_true, if_false] at hat ⊢
    by_cases hsmall : operand ≤ 255
    · rw [if_pos hsmall] at hat ⊢
      have hindex := u8At_of_bytesAt (bytesAt_cons.1 hat).2
      rw [← toUInt16_toUInt8 hsmall] at hvalue
      exact standsAt_fixed hat rfl rfl rfl rfl (fun _ => rfl) fun hop hformat _ =>
        decodeInsn_eq_ok.2 ⟨_, _, hop, hformat, bind_eq_ok.2 ⟨_, hindex,
          bind_eq_ok.2 ⟨_, hvalue, rfl⟩⟩⟩
    · rw [if_neg hsmall] at hat ⊢
      have hindex := u16At_of_bytesAt (bytesAt_cons.1 hat).2
      exact standsAt_fixed hat rfl rfl rfl rfl (fun _ => rfl) fun hop hformat _ =>
        decodeInsn_eq_ok.2 ⟨_, _, hop, hformat, bind_eq_ok.2 ⟨_, hindex,
          bind_eq_ok.2 ⟨_, hvalue, rfl⟩⟩⟩

/-- The length of an instruction with the prefix for large slots. -/
theorem length_of_wide (hat : BytesAt code offset (Opcode.wide :: op :: bytes)) :
    insnLength code offset = .ok (if op = Opcode.iinc then 6 else 4) ∧
      branchTargets code offset = .ok [] := by
  have hformat := formatAt_eq hat rfl
  have hinner := (bytesAt_cons.1 (bytesAt_cons.1 hat).2).1
  exact ⟨insnLength_eq_ok.2 ⟨_, hformat, bind_eq_ok.2 ⟨_, by rw [hinner]; rfl, rfl⟩⟩,
    branchTargets_eq hformat⟩

theorem standsAt_var {slot : UInt16} (h : encodeVar op slot = .ok bytes)
    (hat : BytesAt code offset bytes)
    (form : Opcode.IsLoad op ∨ Opcode.IsStore op ∨ op = Opcode.ret) :
    (Insn.var op slot).StandsAt code pool offset bytes.length := by
  unfold encodeVar at h
  by_cases hlarge : 255 < slot
  · rw [if_pos hlarge] at h
    cases h
    have hop := u8At_eq hat
    have hformat := formatAt_eq hat rfl
    have hinner := u8At_eq (bytesAt_cons.1 hat).2
    have hslot := u16At_of_bytesAt (bytesAt_cons.1 (bytesAt_cons.1 hat).2).2
    have hiinc : op ≠ Opcode.iinc := by
      rintro rfl
      revert form
      decide
    obtain ⟨hlength, htargets⟩ := length_of_wide hat
    rw [if_neg hiinc] at hlength
    refine standsAt_plain (Nat.succ_pos _) (hat.inside (Nat.succ_pos _)) hlength htargets rfl
      (fun _ => rfl) fun _ => ?_
    refine decodeInsn_eq_ok.2 ⟨_, _, hop, hformat, bind_eq_ok.2 ⟨_, hinner,
      bind_eq_ok.2 ⟨_, hslot, ?_⟩⟩⟩
    rw [if_neg hiinc]
    rfl
  rw [if_neg hlarge] at h
  by_cases hshort : hasShortForm op slot = true
  · rw [if_pos hshort] at h
    obtain ⟨b, hb, hbytes⟩ := bind_eq_ok.1 h
    cases hbytes
    have hslot : slot ≤ 3 := by
      unfold hasShortForm at hshort
      simp only [Bool.and_eq_true, decide_eq_true_eq] at hshort
      exact hshort.1
    exact standsAt_fixed hat (Format.of?_shortForm hslot hb) rfl rfl rfl (fun _ => rfl)
      fun hop hformat _ => decodeInsn_eq_ok.2 ⟨_, _, hop, hformat, rfl⟩
  · rw [if_neg hshort] at h
    cases h
    have hslot := u8At_of_bytesAt (bytesAt_cons.1 hat).2
    have hback : slot.toUInt8.toUInt16 = slot := toUInt16_toUInt8 (UInt16.not_lt.1 hlarge)
    refine standsAt_fixed hat ((Format.goesWith op).var form) rfl rfl rfl (fun _ => rfl)
      fun hop hformat _ => ?_
    refine decodeInsn_eq_ok.2 ⟨_, _, hop, hformat, bind_eq_ok.2 ⟨_, hslot, ?_⟩⟩
    rw [hback]
    rfl

theorem standsAt_iinc {slot : UInt16} {delta : Int16}
    (hat : BytesAt code offset (encodeIinc slot delta)) :
    (Insn.iinc slot delta).StandsAt code pool offset (encodeIinc slot delta).length := by
  unfold encodeIinc at hat ⊢
  by_cases hshort : iincIsShort slot delta = true
  · rw [if_pos hshort] at hat ⊢
    simp only [iincIsShort, Bool.and_eq_true, decide_eq_true_eq] at hshort
    obtain ⟨⟨hslot, hge⟩, hle⟩ := hshort
    have hslotAt := u8At_eq (bytesAt_cons.1 hat).2
    have hdeltaAt := i8At_of_bytesAt (bytesAt_cons.1 (bytesAt_cons.1 hat).2).2
    refine standsAt_fixed hat rfl rfl rfl rfl (fun _ => rfl) fun hop hformat _ => ?_
    refine decodeInsn_eq_ok.2 ⟨_, _, hop, hformat, bind_eq_ok.2 ⟨_, hslotAt,
      bind_eq_ok.2 ⟨_, hdeltaAt, ?_⟩⟩⟩
    rw [toUInt16_toUInt8 hslot, toInt16_toInt8 hge hle]
    rfl
  · rw [if_neg hshort] at hat ⊢
    have hop := u8At_eq hat
    have hformat := formatAt_eq hat rfl
    have hinner := u8At_eq (bytesAt_cons.1 hat).2
    have hrest := bytesAt_append.1 (bytesAt_cons.1 (bytesAt_cons.1 hat).2).2
    have hslot := u16At_of_bytesAt hrest.1
    have hdelta := i16At_of_bytesAt hrest.2
    obtain ⟨hlength, htargets⟩ := length_of_wide hat
    refine standsAt_plain (Nat.succ_pos _) (hat.inside (Nat.succ_pos _)) hlength htargets rfl
      (fun _ => rfl) fun _ => ?_
    exact decodeInsn_eq_ok.2 ⟨_, _, hop, hformat, bind_eq_ok.2 ⟨_, hinner,
      bind_eq_ok.2 ⟨_, hslot, bind_eq_ok.2 ⟨_, hdelta, rfl⟩⟩⟩⟩

theorem standsAt_field {m : Member} {interface : Bool}
    (hat : BytesAt code offset (op :: be16 operand)) (form : Opcode.IsField op)
    (hm : pool.memberRef operand = .ok { m with interface }) :
    (Insn.field op m).StandsAt code pool offset 3 := by
  have hindex := u16At_of_bytesAt (bytesAt_cons.1 hat).2
  exact standsAt_fixed hat ((Format.goesWith op).field form) rfl rfl rfl (fun _ => rfl) fun hop hformat _ =>
    decodeInsn_eq_ok.2 ⟨_, _, hop, hformat, bind_eq_ok.2 ⟨_, hindex,
      bind_eq_ok.2 ⟨_, during_eq_ok.2 hm, rfl⟩⟩⟩

theorem standsAt_type {name : String} (hat : BytesAt code offset (op :: be16 operand))
    (form : Opcode.IsType op) (hname : pool.className operand = .ok name) :
    (Insn.type op name).StandsAt code pool offset 3 := by
  have hindex := u16At_of_bytesAt (bytesAt_cons.1 hat).2
  exact standsAt_fixed hat ((Format.goesWith op).type form) rfl rfl rfl (fun _ => rfl) fun hop hformat _ =>
    decodeInsn_eq_ok.2 ⟨_, _, hop, hformat, bind_eq_ok.2 ⟨_, hindex,
      bind_eq_ok.2 ⟨_, during_eq_ok.2 hname, rfl⟩⟩⟩

theorem standsAt_call {site : CallSite} (more : Bytes)
    (hat : BytesAt code offset (site.kind.opcode :: (be16 operand ++ more)))
    (hmore : more.length = if site.kind = .interface then 2 else 0)
    (hm : pool.memberRef operand = .ok site.toMemberRef) :
    (Insn.call site).StandsAt code pool offset
      (site.kind.opcode :: (be16 operand ++ more)).length := by
  have hindex := u16At_of_bytesAt (bytesAt_append.1 (bytesAt_cons.1 hat).2).1
  have hfixed : (Format.call site.kind).fixedLength? =
      some (site.kind.opcode :: (be16 operand ++ more)).length := by
    rw [Format.fixedLength?, List.length_cons, List.length_append, length_be16, hmore]
    split <;> rfl
  exact standsAt_fixed hat (Format.of?_call site.kind) hfixed rfl rfl (fun _ => rfl)
    fun hop hformat _ => decodeInsn_eq_ok.2 ⟨_, _, hop, hformat, bind_eq_ok.2 ⟨_, hindex,
      bind_eq_ok.2 ⟨_, during_eq_ok.2 hm, rfl⟩⟩⟩

theorem standsAt_invokeDynamic {index : UInt16} {name descriptor : String}
    (hat : BytesAt code offset (Opcode.invokeDynamic :: (be16 operand ++ [0, 0])))
    (hcall : decodeComputedCall pool operand = .ok (.invokeDynamic index name descriptor)) :
    (Insn.invokeDynamic index name descriptor).StandsAt code pool offset 5 := by
  have hindex := u16At_of_bytesAt (bytesAt_append.1 (bytesAt_cons.1 hat).2).1
  exact standsAt_fixed hat rfl rfl rfl rfl (fun _ => rfl) fun hop hformat _ =>
    decodeInsn_eq_ok.2 ⟨_, _, hop, hformat, bind_eq_ok.2 ⟨_, hindex, hcall⟩⟩

theorem standsAt_multiANewArray {name : String} {dimensions : UInt8}
    (hat : BytesAt code offset (Opcode.multiANewArray :: (be16 operand ++ [dimensions])))
    (hname : pool.className operand = .ok name) :
    (Insn.multiANewArray name dimensions).StandsAt code pool offset 4 := by
  have hrest := bytesAt_append.1 (bytesAt_cons.1 hat).2
  have hindex := u16At_of_bytesAt hrest.1
  have hdimensions := u8At_of_bytesAt hrest.2
  exact standsAt_fixed hat rfl rfl rfl rfl (fun _ => rfl) fun hop hformat _ =>
    decodeInsn_eq_ok.2 ⟨_, _, hop, hformat, bind_eq_ok.2 ⟨_, hindex,
      bind_eq_ok.2 ⟨_, during_eq_ok.2 hname, bind_eq_ok.2 ⟨_, hdimensions, rfl⟩⟩⟩⟩

end

end Rewire
