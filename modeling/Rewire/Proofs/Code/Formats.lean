import Mathlib
import Rewire.Code.Encode
import Rewire.Code.Format
import Rewire.Code.WellFormed
import Rewire.Proofs.Bytes.Fit

/-!
# Opcodes and their formats

The classes of opcodes that instructions are grouped by are the ones that formats are given by, and
the three functions that read code read it by its formats, each from a table of its own. This file
shows

* what the format of an opcode goes with (`Format.goesWith`): its class, its length and whether it has
  a target;
* that the opcode that has a slot in it stands for that opcode and slot (`of?_shortForm`);
* the opposite of a condition, which is a jump, too (`oppositeCondition_isShortJump`);
* that the loops over the entries of switches go through the same positions (`tableTargets_eq`,
  `pairTargets_eq`, `decodeTableSwitch_eq`, `decodeLookupSwitch_eq`);
* that lengths are measured (`insnLength_eq`), targets collected (`branchTargets_eq`) and instructions
  decoded (`decodeInsn_eq`) as the format says.
-/

namespace Rewire

/-! ## 1. Classes of opcodes -/

/-- What holds of the 256 opcodes holds of every opcode. -/
theorem forall_opcode {P : UInt8 → Prop} (h : ∀ n : Fin 256, P (UInt8.ofNat n)) (op : UInt8) : P op := by
  have := h ⟨op.toNat, op.toNat_lt⟩
  rwa [UInt8.ofNat_toNat] at this

/-- The length of the instructions of a format, if it is the same for all of them. -/
def Format.fixedLength? : Format → Option Nat
  | simple | shortVar _ _ => some 1
  | pushByte | arrayType | ldc | var => some 2
  | pushShort | ldcWide _ | iinc | jump | field | type => some 3
  | multiANewArray => some 4
  | wideJump _ | invokeDynamic => some 5
  | call kind => some (if kind = .interface then 5 else 3)
  | tableSwitch | lookupSwitch | wide => none

/-- Whether the instructions of a format may jump. -/
def Format.branches : Format → Bool
  | jump | wideJump _ | tableSwitch | lookupSwitch => true
  | _ => false

/-- Whether an opcode begins an instruction with a target. -/
def Opcode.HasTarget (op : UInt8) : Prop :=
  (ifeq ≤ op ∧ op ≤ jsr ∨ op = ifNull ∨ op = ifNonNull) ∨ (op = gotoWide ∨ op = jsrWide) ∨
    op = tableSwitch ∨ op = lookupSwitch

instance : DecidablePred Opcode.HasTarget :=
  fun _ => inferInstanceAs (Decidable (_ ∨ _))

/-- What is known of an opcode's format: it goes with the class of the opcode, with its length and with
    whether it has a target. -/
@[mk_iff]
structure Format.GoesWith (op : UInt8) : Prop where
  var : Opcode.IsLoad op ∨ Opcode.IsStore op ∨ op = Opcode.ret → of? op = some .var
  shortLoad : Opcode.IsShortLoad op →
    of? op = some (shortVarFormat Opcode.iload0 Opcode.iload op)
  shortStore : Opcode.IsShortStore op →
    of? op = some (shortVarFormat Opcode.istore0 Opcode.istore op)
  jump : Opcode.IsShortJump op → of? op = some .jump
  field : Opcode.IsField op → of? op = some .field
  type : Opcode.IsType op → of? op = some .type
  call : Opcode.IsCall op →
    ∃ kind, CallKind.ofOpcode? op = some kind ∧ of? op = some (.call kind)
  length : Rewire.fixedLength? op = (of? op).bind fixedLength?
  /-- Only three opcodes have instructions that differ in length. -/
  anyLength : ∀ format ∈ of? op, format.fixedLength? = none → op = 0xaa ∨ op = 0xab ∨ op = 0xc4
  plain : ¬ Opcode.HasTarget op → ∀ format ∈ of? op, format.branches = false
  target : Opcode.HasTarget op → (of? op).isSome

instance : DecidablePred Format.GoesWith :=
  fun op => decidable_of_iff' _ (Format.goesWith_iff op)

/-- **Opcodes, lengths and formats go together**, which is decided for all of them at once. -/
theorem Format.goesWith (op : UInt8) : GoesWith op :=
  forall_opcode (by decide +kernel) op

namespace Format

theorem of?_simple {op : UInt8} (h : Opcode.IsSimple op) : of? op = some .simple :=
  if_pos h

theorem of?_call (kind : CallKind) : of? kind.opcode = some (.call kind) := by
  cases kind <;> rfl

/-- The opcode with a slot in it stands for the opcode and the slot. -/
theorem of?_shortForm {op : UInt8} {slot : UInt16} {b : UInt8} (hslot : slot ≤ 3)
    (h : shortForm op slot.toUInt8 = .ok b) : of? b = some (.shortVar op slot) := by
  have hall : ∀ (n : Fin 256) (s : Fin 4),
      (shortForm (UInt8.ofNat n) (UInt16.ofNat s).toUInt8).toOption.all fun b =>
        of? b = some (.shortVar (UInt8.ofNat n) (UInt16.ofNat s)) := by
    decide +kernel
  have hlt : slot.toNat < 4 := Nat.lt_succ_of_le hslot
  have := hall ⟨op.toNat, op.toNat_lt⟩ ⟨slot.toNat, hlt⟩
  rw [UInt8.ofNat_toNat, UInt16.ofNat_toNat, h] at this
  exact of_decide_eq_true this

end Format

/-- The opposite of a condition is a jump. -/
theorem oppositeCondition_isShortJump {op opposite : UInt8}
    (h : oppositeCondition op = .ok opposite) : Opcode.IsShortJump opposite := by
  have hall : ∀ n : Fin 256, (oppositeCondition (UInt8.ofNat n)).toOption.all fun opposite =>
      Opcode.IsShortJump opposite := by
    decide +kernel
  have := hall ⟨op.toNat, op.toNat_lt⟩
  rw [UInt8.ofNat_toNat, h] at this
  exact of_decide_eq_true this

/-! ## 2. Reading by formats -/

section Readers

variable {code : Array UInt8} {pool : ConstantPool} {labels : LabelTable} {offset length : Nat}
  {op : UInt8} {format : Format}

theorem formatAt_eq_ok : formatAt code offset = .ok format ↔
    ∃ op, u8At code offset = .ok op ∧ Format.of? op = some format := by
  simp only [formatAt, bind_eq_ok, orFail_eq_ok]

theorem Format.length_of_fixed (h : format.fixedLength? = some length) :
    format.length code offset = .ok length := by
  cases format <;> cases h <;> rfl

/-- The result of a chain of conditions, one at a time. -/
theorem ite_eq_of {α : Type} {c : Prop} [Decidable c] {a b x : α} (ha : c → a = x)
    (hb : ¬ c → b = x) : (if c then a else b) = x := by
  split
  · exact ha ‹_›
  · exact hb ‹_›

theorem tableCount?_eq_some {low high count : Int32} :
    tableCount? low high = some count ↔
      count.toInt = high.toInt - low.toInt + 1 ∧ -0x80000000 ≤ high.toInt - low.toInt := by
  have hone : (1 : Int32).toInt = 1 := rfl
  have hge := count.le_toInt
  have hlt := count.toInt_lt
  simp only [tableCount?, bind, Option.bind_eq_some_iff, subInt32?_eq_some, addInt32?_eq_some, hone]
  constructor
  · rintro ⟨d, hd, hc⟩
    have := d.le_toInt
    omega
  · rintro ⟨hc, hle⟩
    have hd : (Int32.ofInt (high.toInt - low.toInt)).toInt = high.toInt - low.toInt :=
      Int32.toInt_ofInt_of_le hle (by omega)
    exact ⟨_, hd, by rw [hd, hc]⟩

/-- Numbers at one distance from each other, from `a` on. -/
theorem map_range_eq_range' (a step n : Nat) :
    ((List.range n).map fun i => a + step * i) = List.range' a n step :=
  List.ext_getElem (by simp) fun _ _ _ => by simp

theorem Format.targets_of_not_branches (h : format.branches = false) :
    format.targets code offset = .ok [] := by
  cases format <;> first | rfl | cases h

/-- The size of a table is a count that the decoder comes to, too. -/
theorem tableSizeAt_eq_ok {count : Nat} : tableSizeAt code offset = .ok count ↔
    ∃ low high n, i32At code (switchBase offset + 4) = .ok low ∧
      i32At code (switchBase offset + 8) = .ok high ∧ tableCount? low high = some n ∧
      n.toInt = count := by
  simp only [tableSizeAt, bind_eq_ok]
  constructor
  · rintro ⟨low, hlow, high, hhigh, h⟩
    split at h
    · rename_i hn
      cases h
      have hint : (Int32.ofInt (high.toInt - low.toInt + 1)).toInt = high.toInt - low.toInt + 1 :=
        Int32.toInt_ofInt_of_le (by omega) (by omega)
      exact ⟨low, high, _, hlow, hhigh, tableCount?_eq_some.2 ⟨hint, by omega⟩, by omega⟩
    · cases h
  · rintro ⟨low, high, n, hlow, hhigh, hn, hcount⟩
    obtain ⟨hint, -⟩ := tableCount?_eq_some.1 hn
    have hlt := n.toInt_lt
    refine ⟨low, hlow, high, hhigh, ?_⟩
    rw [if_pos (by omega), ← hint, hcount]
    rfl

theorem pairCountAt_eq_ok {count : Nat} : pairCountAt code offset = .ok count ↔
    ∃ n, i32At code (switchBase offset + 4) = .ok n ∧ n.toInt = count := by
  have hzero : (0 : Int32).toInt = 0 := rfl
  simp only [pairCountAt, bind_eq_ok]
  refine exists_congr fun n => and_congr_right fun _ => ?_
  split
  · rename_i hneg
    have := Int32.lt_iff_toInt_lt.1 hneg
    exact iff_of_false nofun (by omega)
  · rename_i hneg
    have := mt Int32.lt_iff_toInt_lt.2 hneg
    rw [pure_eq_ok]
    omega

/-- The length of a `tableswitch` is measured by the size of its table. -/
theorem tableSwitchLengthAt_eq :
    tableSwitchLengthAt code offset = Format.tableSwitch.length code offset := by
  simp only [tableSwitchLengthAt, Format.length, tableSizeAt, bind_assoc]
  refine bind_congr_of_ok fun low _ => bind_congr_of_ok fun high _ => ?_
  cases hcount : tableCount? low high with
  | none =>
    rw [if_neg]
    · rfl
    · rintro ⟨hge, hlt⟩
      have hint : (Int32.ofInt (high.toInt - low.toInt + 1)).toInt = high.toInt - low.toInt + 1 :=
        Int32.toInt_ofInt_of_le (by omega) hlt
      exact nomatch hcount.symm.trans (tableCount?_eq_some.2 ⟨hint, by omega⟩)
  | some count =>
    obtain ⟨hint, -⟩ := tableCount?_eq_some.1 hcount
    have hlt := count.toInt_lt
    rw [← hint]
    by_cases hneg : count < 0
    · have hnegInt : ¬ (0 ≤ count.toInt ∧ count.toInt < 0x80000000) := fun h =>
        Int.not_lt.2 h.1 (Int32.lt_iff_toInt_lt.1 hneg)
      rw [if_neg hnegInt]
      exact if_pos hneg
    · have hnonneg : 0 ≤ count.toInt := Int.not_lt.1 fun h => hneg (Int32.lt_iff_toInt_lt.2 h)
      rw [if_pos ⟨hnonneg, hlt⟩]
      exact if_neg hneg

theorem lookupSwitchLengthAt_eq :
    lookupSwitchLengthAt code offset = Format.lookupSwitch.length code offset := by
  simp only [lookupSwitchLengthAt, Format.length, pairCountAt, bind_assoc]
  refine bind_congr_of_ok fun count _ => ?_
  split <;> rfl

/-- **Lengths are measured as the format says.** -/
theorem insnLength_eq :
    insnLength code offset = (do (← formatAt code offset).length code offset) := by
  unfold insnLength formatAt
  rw [bind_assoc]
  refine bind_congr_of_ok fun op _ => ?_
  refine ite_eq_of (fun h => ?_) fun htable => ?_
  · subst h
    exact tableSwitchLengthAt_eq
  refine ite_eq_of (fun h => ?_) fun hlookup => ?_
  · subst h
    exact lookupSwitchLengthAt_eq
  refine ite_eq_of (fun h => ?_) fun hwide => ?_
  · subst h
    rfl
  rw [(Format.goesWith op).length]
  cases hf : Format.of? op with
  | none => rfl
  | some format =>
    show orFail (.unsupportedOpcode op) format.fixedLength? = format.length code offset
    cases hlength : format.fixedLength? with
    | none =>
      rcases (Format.goesWith op).anyLength format hf hlength with h | h | h
      · exact absurd h htable
      · exact absurd h hlookup
      · exact absurd h hwide
    | some length => exact (Format.length_of_fixed hlength).symm

/-- The table of a `tableswitch` is gone through position by position. -/
theorem tableTargets_eq : tableTargets code offset = Format.tableSwitch.targets code offset := by
  refine bind_congr_of_ok fun low _ => bind_congr_of_ok fun high _ => ?_
  rw [switchTargets, List.mapM_cons, tablePositions, map_range_eq_range']
  exact bind_congr_of_ok fun default _ =>
    loop_eq_mapM (fun _ _ => rfl) (fun _ _ _ => rfl) [default] _ _

theorem pairTargets_eq : pairTargets code offset = Format.lookupSwitch.targets code offset := by
  refine bind_congr_of_ok fun count _ => ?_
  rw [switchTargets, List.mapM_cons, pairPositions, map_range_eq_range']
  exact bind_congr_of_ok fun default _ =>
    loop_eq_mapM (fun _ _ => rfl) (fun _ _ _ => rfl) [default] _ _

/-- **Targets are collected as the format says.** -/
theorem branchTargets_eq (h : formatAt code offset = .ok format) :
    branchTargets code offset = format.targets code offset := by
  obtain ⟨op, hop, hf⟩ := formatAt_eq_ok.1 h
  have read : ∀ f, Format.of? op = some f → f.targets code offset = format.targets code offset := by
    intro f h
    rw [Option.some.inj (h.symm.trans hf)]
  rw [branchTargets, hop]
  refine ite_eq_of (fun h => read .jump ((Format.goesWith op).jump h)) fun hjump => ?_
  refine ite_eq_of (fun h => ?_) fun hwide => ?_
  · rcases h with rfl | rfl
    · exact read (.wideJump Opcode.goto) rfl
    · exact read (.wideJump Opcode.jsr) rfl
  refine ite_eq_of (fun h => tableTargets_eq.trans (read .tableSwitch (h ▸ rfl))) fun htable => ?_
  refine ite_eq_of (fun h => pairTargets_eq.trans (read .lookupSwitch (h ▸ rfl))) fun hlookup => ?_
  have hplain : ¬ Opcode.HasTarget op := by
    rintro (h | h | h | h)
    · exact hjump h
    · exact hwide h
    · exact htable h
    · exact hlookup h
  exact (Format.targets_of_not_branches ((Format.goesWith op).plain hplain format hf)).symm

theorem branchTargets_of_none (hop : u8At code offset = .ok op) (hf : Format.of? op = none) :
    branchTargets code offset = .ok [] := by
  have hplain : ¬ Opcode.HasTarget op := fun h => by
    have hsome := (Format.goesWith op).target h
    rw [hf] at hsome
    cases hsome
  simp only [Opcode.HasTarget, not_or] at hplain
  refine bind_eq_ok.2 ⟨op, hop, ?_⟩
  simp only [hplain, or_self, if_false]
  rfl

/-- Only what has a format jumps. -/
theorem targets_of_branchTargets {targets : List Nat} (h : branchTargets code offset = .ok targets) :
    targets = [] ∨ ∃ format, formatAt code offset = .ok format ∧
      format.targets code offset = .ok targets := by
  obtain ⟨op, hop, -⟩ := bind_eq_ok.1 h
  cases hf : Format.of? op with
  | some format =>
    have hformat := formatAt_eq_ok.2 ⟨op, hop, hf⟩
    exact .inr ⟨format, hformat, branchTargets_eq hformat ▸ h⟩
  | none =>
    cases h.symm.trans (branchTargets_of_none hop hf)
    exact .inl rfl

/-- So are the labels of a `tableswitch`. -/
theorem decodeTableSwitch_eq : decodeTableSwitch code labels offset =
    Format.tableSwitch.insn code offset pool labels op := by
  refine bind_congr_of_ok fun default _ => bind_congr_of_ok fun low _ =>
    bind_congr_of_ok fun high _ => bind_congr_of_ok fun count _ => ?_
  rw [tablePositions, List.mapM_map, List.range_eq_range']
  have hstop : ∀ done i, tableLabels code labels offset done i 0 = .ok done.reverse :=
    fun _ _ => rfl
  have hloop := loop_eq_mapM hstop (fun _ _ _ => rfl) [] 0 count.toInt.toNat
  simp only [hloop, bind_assoc, Nat.mul_comm 4]
  rfl

theorem decodeLookupSwitch_eq : decodeLookupSwitch code labels offset =
    Format.lookupSwitch.insn code offset pool labels op := by
  refine bind_congr_of_ok fun default _ => bind_congr_of_ok fun count _ => ?_
  rw [pairPositions, List.mapM_map, List.range_eq_range']
  have hnext : ∀ (done : List (Int32 × Label)) (index n : Nat),
      keyLabels code labels offset done index (n + 1) =
        (do
          let key ← i32At code (switchBase offset + 12 + 8 * index - 4)
          return (key, ← jumpLabelAt code labels offset (switchBase offset + 12 + 8 * index))) >>=
          fun pair => keyLabels code labels offset (pair :: done) (index + 1) n := by
    intro done index n
    have hkey : switchBase offset + 12 + 8 * index - 4 = switchBase offset + 8 + index * 8 := by
      omega
    rw [hkey, Nat.mul_comm 8, keyLabels]
    simp only [bind_assoc]
    rfl
  have hloop := loop_eq_mapM (fun _ _ => rfl) hnext [] 0 count.toInt.toNat
  simp only [hloop, bind_assoc]
  rfl

set_option synthInstance.maxSize 1000 in
/-- **Instructions are decoded as the format says.** -/
theorem decodeInsn_eq : decodeInsn code pool labels offset = (do
    let op ← u8At code offset
    (← formatAt code offset).insn code offset pool labels op) := by
  unfold decodeInsn
  refine bind_congr_of_ok fun op hop => ?_
  have hformat : formatAt code offset = orFail (.unsupportedOpcode op) (Format.of? op) := by
    rw [formatAt, hop]
    rfl
  rw [hformat]
  have read : ∀ format, Format.of? op = some format → format.insn code offset pool labels op =
      orFail (.unsupportedOpcode op) (Format.of? op) >>= fun f => f.insn code offset pool labels op := by
    intro format hf
    rw [hf]
    rfl
  -- one branch for each line of the decoder's own table
  refine ite_eq_of (fun h => read _ (Format.of?_simple (.inl h))) fun _ => ?_
  refine ite_eq_of (fun h => read .pushByte (h ▸ rfl)) fun _ => ?_
  refine ite_eq_of (fun h => read .pushShort (h ▸ rfl)) fun _ => ?_
  refine ite_eq_of (fun h => read .ldc (h ▸ rfl)) fun _ => ?_
  refine ite_eq_of (fun h => read (.ldcWide false) (h ▸ rfl)) fun _ => ?_
  refine ite_eq_of (fun h => read (.ldcWide true) (h ▸ rfl)) fun _ => ?_
  refine ite_eq_of (fun h => read _ ((Format.goesWith op).var h)) fun _ => ?_
  refine ite_eq_of (fun h => read _ ((Format.goesWith op).shortLoad h)) fun _ => ?_
  refine ite_eq_of (fun h => read _ ((Format.goesWith op).shortStore h)) fun _ => ?_
  refine ite_eq_of (fun h => read _ (Format.of?_simple
    (.inr (h.imp_right .inl)))) fun _ => ?_
  refine ite_eq_of (fun h => read .iinc (h ▸ rfl)) fun _ => ?_
  refine ite_eq_of (fun h => read _ (Format.of?_simple (.inr (.inr (.inr (.inl h)))))) fun _ => ?_
  refine ite_eq_of (fun h => read _ ((Format.goesWith op).jump h)) fun _ => ?_
  refine ite_eq_of (fun h => read (.wideJump Opcode.goto) (h ▸ rfl)) fun _ => ?_
  refine ite_eq_of (fun h => read (.wideJump Opcode.jsr) (h ▸ rfl)) fun _ => ?_
  refine ite_eq_of (fun h => decodeTableSwitch_eq.trans (read .tableSwitch (h ▸ rfl))) fun _ => ?_
  refine ite_eq_of (fun h => decodeLookupSwitch_eq.trans (read .lookupSwitch (h ▸ rfl))) fun _ => ?_
  refine ite_eq_of (fun h => read _ (Format.of?_simple (.inr (.inr (.inr (.inr (.inl h))))))) fun _ => ?_
  refine ite_eq_of (fun h => read _ ((Format.goesWith op).field h)) fun _ => ?_
  refine ite_eq_of (fun h => ?_) fun _ => ?_
  · obtain ⟨kind, hkind, hf⟩ := (Format.goesWith op).call h
    rw [← read _ hf, hkind]
    rfl
  refine ite_eq_of (fun h => read .invokeDynamic (h ▸ rfl)) fun _ => ?_
  refine ite_eq_of (fun h => read _ ((Format.goesWith op).type h)) fun _ => ?_
  refine ite_eq_of (fun h => read .arrayType (h ▸ rfl)) fun _ => ?_
  refine ite_eq_of (fun h => read _ (Format.of?_simple
    (.inr (.inr (.inr (.inr (.inr h))))))) fun _ => ?_
  refine ite_eq_of (fun h => read .wide (h ▸ rfl)) fun _ => ?_
  refine ite_eq_of (fun h => read .multiANewArray (h ▸ rfl)) fun _ => ?_
  have hnone : Format.of? op = none := by
    clear hop hformat read
    revert op
    exact forall_opcode (by decide +kernel)
  rw [hnone]
  rfl

theorem insnLength_eq_ok : insnLength code offset = .ok length ↔
    ∃ format, formatAt code offset = .ok format ∧ format.length code offset = .ok length := by
  rw [insnLength_eq, bind_eq_ok]

theorem decodeInsn_eq_ok {i : Insn} : decodeInsn code pool labels offset = .ok i ↔
    ∃ op format, u8At code offset = .ok op ∧ formatAt code offset = .ok format ∧
      format.insn code offset pool labels op = .ok i := by
  simp only [decodeInsn_eq, bind_eq_ok, exists_and_left]

end Readers

end Rewire
