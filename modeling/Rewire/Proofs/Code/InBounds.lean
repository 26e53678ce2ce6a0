import Mathlib
import Rewire.Proofs.Code.Targets
import Rewire.Proofs.Faults

/-!
# Decoding stays inside the code

Three functions know how far an instruction reaches: its length, its targets and its operands are read
one after another, each by a table of its own, and the last of them takes its bytes where the others
said that they are. This file shows that they agree on every opcode:

* computations that look at code only inside a range (`LooksWithin`), which follow the structure of the
  computation down to the single words (`LooksWithin.u8At`, …);
* an instruction that ends inside the code is decoded from its own bytes, and only lacks a label where
  it may jump to (`looksWithin_decodeInsn`);
* the scan looks for every byte before it uses it (`failsBy_scanFrom`);
* decoding a method, whatever its bytes and the pool are, is a value or a failure over the bytes
  (`decodeMethod_inBounds`).
-/

namespace Rewire

variable {α β : Type}

/-! ## 1. Looking inside a range -/

/-- Whether a computation on code looks at the bytes of a range only, and fails only over root causes of
    a kind. -/
structure LooksWithin (kind : Fault → Prop) (code : Array UInt8) (start stop : Nat)
    (x : Array UInt8 → Outcome α) : Prop where
  same : ∀ code' : Array UInt8, (∀ i, start ≤ i → i < stop → code'[i]? = code[i]?) → x code' = x code
  fails : FailsBy kind (x code)

namespace LooksWithin

variable {kind : Fault → Prop} {code : Array UInt8} {start stop : Nat}
  {x : Array UInt8 → Outcome α} {f : α → Array UInt8 → Outcome β}

/-- What does not look at the code at all. -/
theorem const {y : Outcome α} (h : FailsBy kind y) : LooksWithin kind code start stop fun _ => y where
  same _ _ := rfl
  fails := h

theorem pure (a : α) : LooksWithin kind code start stop fun _ => Pure.pure a :=
  const (failsBy_ok a)

theorem bind (hx : LooksWithin kind code start stop x)
    (hf : ∀ a, x code = .ok a → LooksWithin kind code start stop (f a)) :
    LooksWithin kind code start stop fun c => x c >>= fun a => f a c where
  same code' agree := by
    rw [hx.same code' agree]
    cases hcode : x code with
    | error e => rfl
    | ok a => exact (hf a hcode).same code' agree
  fails := hx.fails.bind fun a ha => (hf a ha).fails

/-- What succeeds fails over nothing. -/
theorem of_ok {a : α} (hx : LooksWithin (fun _ => True) code start stop x) (ha : x code = .ok a) :
    LooksWithin kind code start stop x where
  same := hx.same
  fails := .of_ok ha

theorem mapM {f : β → Array UInt8 → Outcome α} {l : List β}
    (hf : ∀ b ∈ l, LooksWithin kind code start stop (f b)) :
    LooksWithin kind code start stop fun c => l.mapM fun b => f b c := by
  induction l with
  | nil => exact pure []
  | cons b rest ih =>
    simp only [List.mapM_cons]
    exact (hf b List.mem_cons_self).bind fun _ _ =>
      (ih fun b hb => hf b (List.mem_cons_of_mem _ hb)).bind fun _ _ => pure _

/-! The words that lie in a range inside the code. -/

section Words

variable {i : Nat} (inside : stop ≤ code.size) (low : start ≤ i)

include inside low

theorem u8At (high : i + 1 ≤ stop) : LooksWithin kind code start stop fun c => u8At c i where
  same code' agree := by
    rw [Rewire.u8At, agree i low (by omega), ← Rewire.u8At]
  fails := .of_ok (orFail_eq_ok.2 (Array.getElem?_eq_getElem (by omega)))

theorem u16At (high : i + 2 ≤ stop) : LooksWithin kind code start stop fun c => u16At c i where
  same code' agree := by
    rw [Rewire.u16At, agree i low (by omega), agree (i + 1) (by omega) (by omega), ← Rewire.u16At]
  fails := by
    have h₀ : code[i]? = _ := Array.getElem?_eq_getElem (by omega)
    have h₁ : code[i + 1]? = _ := Array.getElem?_eq_getElem (by omega)
    rw [Rewire.u16At, h₀, h₁]
    exact failsBy_ok _

theorem u32At (high : i + 4 ≤ stop) : LooksWithin kind code start stop fun c => u32At c i where
  same code' agree := by
    rw [Rewire.u32At, agree i low (by omega), agree (i + 1) (by omega) (by omega),
      agree (i + 2) (by omega) (by omega), agree (i + 3) (by omega) (by omega), ← Rewire.u32At]
  fails := by
    have h₀ : code[i]? = _ := Array.getElem?_eq_getElem (by omega)
    have h₁ : code[i + 1]? = _ := Array.getElem?_eq_getElem (by omega)
    have h₂ : code[i + 2]? = _ := Array.getElem?_eq_getElem (by omega)
    have h₃ : code[i + 3]? = _ := Array.getElem?_eq_getElem (by omega)
    rw [Rewire.u32At, h₀, h₁, h₂, h₃]
    exact failsBy_ok _

theorem i8At (high : i + 1 ≤ stop) : LooksWithin kind code start stop fun c => i8At c i :=
  (u8At inside low high).bind fun _ _ => pure _

theorem i16At (high : i + 2 ≤ stop) : LooksWithin kind code start stop fun c => i16At c i :=
  (u16At inside low high).bind fun _ _ => pure _

theorem i32At (high : i + 4 ≤ stop) : LooksWithin kind code start stop fun c => i32At c i :=
  (u32At inside low high).bind fun _ _ => pure _

end Words

end LooksWithin

/-! ## 2. One instruction -/

section Insns

variable {code : Array UInt8} {pool : ConstantPool} {labels : LabelTable} {offset length n : Nat}

/-- Whether a root cause is met by decoding an instruction that ends inside the code: something is wrong
    with its constant, or it may jump to an offset that has no label. -/
def Fault.IsOfInsn (code : Array UInt8) (labels : LabelTable) (offset : Nat) (f : Fault) : Prop :=
  f.IsOfPool ∨ ∃ n, f = .noLabelAt n ∧ labels.at? n = none ∧
    ∀ targets, branchTargets code offset = .ok targets → n ∈ targets

theorem FailsBy.ofPool {x : Outcome α} (h : FailsBy Fault.IsOfPool x) :
    FailsBy (Fault.IsOfInsn code labels offset) x :=
  h.imp fun _ => .inl

/-- A label is lacking only where the instruction may jump to. -/
theorem failsBy_jumpLabel {delta : Int} (h : ∀ targets, branchTargets code offset = .ok targets →
    asOffset ((offset : Int) + delta) ∈ targets) :
    FailsBy (Fault.IsOfInsn code labels offset) (jumpLabel labels offset delta) := by
  intro e he
  unfold jumpLabel LabelTable.get at he
  cases hat : labels.at? (asOffset ((offset : Int) + delta)) with
  | some l =>
    rw [hat] at he
    cases he
  | none =>
    rw [hat] at he
    cases he
    exact .inr ⟨_, rfl, hat, h⟩

/-- The displacement at one of the positions of a switch leads to one of its targets. -/
theorem mem_of_branchTargetAt {positions targets : List Nat} {position : Nat} {delta : Int32}
    (h : positions.mapM (branchTargetAt code offset) = .ok targets) (hposition : position ∈ positions)
    (hdelta : i32At code position = .ok delta) :
    asOffset ((offset : Int) + delta.toInt) ∈ targets := by
  obtain ⟨n, hn, htarget⟩ := exists_left_of_forall₂ (mapM_eq_ok.1 h).flip hposition
  obtain ⟨delta', hdelta', htarget⟩ := bind_eq_ok.1 htarget
  cases hdelta.symm.trans hdelta'
  rwa [← (branchTarget_eq_ok htarget).1]

/-- The label of a target that is stored inside the instruction. -/
theorem looksWithin_jumpLabelAt {stop position : Nat} (inside : stop ≤ code.size)
    (low : offset ≤ position) (high : position + 4 ≤ stop)
    (h : ∀ delta targets, i32At code position = .ok delta →
      branchTargets code offset = .ok targets → asOffset ((offset : Int) + delta.toInt) ∈ targets) :
    LooksWithin (Fault.IsOfInsn code labels offset) code offset stop
      fun c => jumpLabelAt c labels offset position :=
  (LooksWithin.i32At inside low high).bind fun delta hdelta =>
    .const (failsBy_jumpLabel fun targets htargets => h delta targets hdelta htargets)

/-- The offsets inside an instruction at which a switch keeps its numbers. -/
theorem le_switchBase (offset : Nat) : offset + 1 ≤ switchBase offset :=
  Nat.le_add_right _ _

theorem mem_tablePositions {count position : Nat} :
    position ∈ tablePositions offset count ↔ ∃ k < count, position = switchBase offset + 12 + 4 * k := by
  simp only [tablePositions, List.mem_map, List.mem_range, eq_comm]

theorem mem_pairPositions {count position : Nat} :
    position ∈ pairPositions offset count ↔ ∃ k < count, position = switchBase offset + 12 + 8 * k := by
  simp only [pairPositions, List.mem_map, List.mem_range, eq_comm]

/-- The offset that a displacement leads to is one of the targets, in each format with targets. -/
theorem mem_targets_jump {delta : Int16} {targets : List Nat}
    (hformat : formatAt code offset = .ok .jump)
    (hdelta : i16At code (offset + 1) = .ok delta) (h : branchTargets code offset = .ok targets) :
    asOffset ((offset : Int) + delta.toInt) ∈ targets := by
  rw [branchTargets_eq hformat] at h
  obtain ⟨_, hdelta', h⟩ := bind_eq_ok.1 h
  cases hdelta.symm.trans hdelta'
  obtain ⟨n, hn, h⟩ := bind_eq_ok.1 h
  cases h
  rw [(branchTarget_eq_ok hn).1]
  exact List.mem_singleton.2 rfl

theorem mem_targets_wideJump {opcode : UInt8} {delta : Int32} {targets : List Nat}
    (hformat : formatAt code offset = .ok (.wideJump opcode))
    (hdelta : i32At code (offset + 1) = .ok delta) (h : branchTargets code offset = .ok targets) :
    asOffset ((offset : Int) + delta.toInt) ∈ targets := by
  rw [branchTargets_eq hformat] at h
  obtain ⟨n, hn, h⟩ := bind_eq_ok.1 h
  cases h
  obtain ⟨_, hdelta', hn⟩ := bind_eq_ok.1 hn
  cases hdelta.symm.trans hdelta'
  rw [(branchTarget_eq_ok hn).1]
  exact List.mem_singleton.2 rfl

theorem mem_targets_tableSwitch {count position : Nat} {delta : Int32} {targets : List Nat}
    (hformat : formatAt code offset = .ok .tableSwitch) (hcount : tableSizeAt code offset = .ok count)
    (hposition : position ∈ switchBase offset :: tablePositions offset count)
    (hdelta : i32At code position = .ok delta) (h : branchTargets code offset = .ok targets) :
    asOffset ((offset : Int) + delta.toInt) ∈ targets := by
  obtain ⟨low, high, n, hlow, hhigh, hn, hint⟩ := tableSizeAt_eq_ok.1 hcount
  have hsize : (high.toInt - low.toInt + 1).toNat = count := by
    have := (tableCount?_eq_some.1 hn).1
    omega
  rw [branchTargets_eq hformat, Format.targets, hlow, hhigh] at h
  refine mem_of_branchTargetAt h ?_ hdelta
  rwa [hsize]

theorem mem_targets_lookupSwitch {count position : Nat} {delta : Int32} {targets : List Nat}
    (hformat : formatAt code offset = .ok .lookupSwitch) (hcount : pairCountAt code offset = .ok count)
    (hposition : position ∈ switchBase offset :: pairPositions offset count)
    (hdelta : i32At code position = .ok delta) (h : branchTargets code offset = .ok targets) :
    asOffset ((offset : Int) + delta.toInt) ∈ targets := by
  obtain ⟨n, hn, hint⟩ := pairCountAt_eq_ok.1 hcount
  rw [branchTargets_eq hformat, Format.targets, hn] at h
  refine mem_of_branchTargetAt h ?_ hdelta
  rwa [show n.toInt.toNat = count by omega]

/-- Every instruction takes at least one byte. -/
theorem pos_of_insnLength (h : insnLength code offset = .ok length) : 0 < length := by
  obtain ⟨format, -, h⟩ := insnLength_eq_ok.1 h
  cases format with
  | tableSwitch =>
    obtain ⟨count, -, h⟩ := bind_eq_ok.1 h
    cases h
    unfold tableSwitchLength
    omega
  | lookupSwitch =>
    obtain ⟨count, -, h⟩ := bind_eq_ok.1 h
    cases h
    unfold lookupSwitchLength
    omega
  | wide =>
    obtain ⟨op, -, h⟩ := bind_eq_ok.1 h
    cases h
    split <;> decide
  | call kind =>
    cases h
    split <;> decide
  | _ =>
    cases h
    decide

theorem failsBy_decodeLoadable (pool : ConstantPool) (index : UInt16) (wide : Bool) :
    FailsBy Fault.IsOfPool (decodeLoadable pool index wide) := by
  refine (failsBy_get pool index).bind fun c _ => ?_
  cases c with
  | string text => exact (failsBy_text pool text).bind fun _ _ => failsBy_pure _
  | classRef name => exact (failsBy_text pool name).bind fun _ _ => failsBy_pure _
  | integer | float | long | double | methodType | methodHandle | dynamic => exact failsBy_pure _
  | _ => exact failsBy_fail trivial

theorem failsBy_decodeComputedCall (pool : ConstantPool) (index : UInt16) :
    FailsBy Fault.IsOfPool (decodeComputedCall pool index) := by
  refine (failsBy_get pool index).bind fun c _ => ?_
  cases c with
  | invokeDynamic bootstrap member =>
    exact (failsBy_nameAndType pool member).bind fun _ _ => failsBy_pure _
  | _ => exact failsBy_fail trivial

section Switches

variable {stop count : Nat} (inside : stop ≤ code.size)

include inside

/-- The operands of a `tableswitch`, whose last target ends at `stop`. -/
theorem looksWithin_tableSwitch {op : UInt8} (hformat : formatAt code offset = .ok .tableSwitch)
    (hcount : tableSizeAt code offset = .ok count) (hstop : stop = switchBase offset + 12 + 4 * count) :
    LooksWithin (Fault.IsOfInsn code labels offset) code offset stop
      fun c => Format.tableSwitch.insn c offset pool labels op := by
  have hbase := le_switchBase offset
  obtain ⟨low, high, n, hlow, hhigh, hn, hint⟩ := tableSizeAt_eq_ok.1 hcount
  have htarget : ∀ position ∈ switchBase offset :: tablePositions offset count,
      LooksWithin (Fault.IsOfInsn code labels offset) code offset stop
        fun c => jumpLabelAt c labels offset position := by
    intro position hposition
    have hrange : offset ≤ position ∧ position + 4 ≤ stop := by
      rcases List.mem_cons.1 hposition with rfl | hposition
      · omega
      · obtain ⟨k, hk, rfl⟩ := mem_tablePositions.1 hposition
        omega
    exact looksWithin_jumpLabelAt inside hrange.1 hrange.2 fun _ _ =>
      mem_targets_tableSwitch hformat hcount hposition
  refine (htarget _ List.mem_cons_self).bind fun _ _ =>
    (LooksWithin.i32At inside (by omega) (by omega)).bind fun low' hlow' =>
      (LooksWithin.i32At inside (by omega) (by omega)).bind fun high' hhigh' => ?_
  cases hlow.symm.trans hlow'
  cases hhigh.symm.trans hhigh'
  rw [hn]
  refine (LooksWithin.const (failsBy_ok n)).bind fun n' hn' => ?_
  cases hn'
  rw [show n.toInt.toNat = count by omega]
  exact (LooksWithin.mapM fun position hposition =>
    htarget position (List.mem_cons_of_mem _ hposition)).bind fun _ _ => .pure _

/-- The operands of a `lookupswitch`, whose last pair ends at `stop`. -/
theorem looksWithin_lookupSwitch {op : UInt8} (hformat : formatAt code offset = .ok .lookupSwitch)
    (hcount : pairCountAt code offset = .ok count) (hstop : stop = switchBase offset + 8 + 8 * count) :
    LooksWithin (Fault.IsOfInsn code labels offset) code offset stop
      fun c => Format.lookupSwitch.insn c offset pool labels op := by
  have hbase := le_switchBase offset
  obtain ⟨n, hn, hint⟩ := pairCountAt_eq_ok.1 hcount
  have hdefault : LooksWithin (Fault.IsOfInsn code labels offset) code offset stop
      fun c => jumpLabelAt c labels offset (switchBase offset) :=
    looksWithin_jumpLabelAt inside (by omega) (by omega) fun _ _ =>
      mem_targets_lookupSwitch hformat hcount List.mem_cons_self
  refine hdefault.bind fun _ _ =>
    (LooksWithin.i32At inside (by omega) (by omega)).bind fun n' hn' => ?_
  cases hn.symm.trans hn'
  rw [show n.toInt.toNat = count by omega]
  refine (LooksWithin.mapM fun position hposition => ?_).bind fun _ _ => .pure _
  have hmem := List.mem_cons_of_mem (switchBase offset) hposition
  obtain ⟨k, hk, rfl⟩ := mem_pairPositions.1 hposition
  exact (LooksWithin.i32At inside (by omega) (by omega)).bind fun _ _ =>
    (looksWithin_jumpLabelAt inside (by omega) (by omega) fun _ _ =>
      mem_targets_lookupSwitch hformat hcount hmem).bind fun _ _ => .pure _

end Switches

/-- **An instruction that ends inside the code** is decoded from its own bytes. -/
theorem looksWithin_decodeInsn (hlength : insnLength code offset = .ok length)
    (inside : offset + length ≤ code.size) :
    LooksWithin (Fault.IsOfInsn code labels offset) code offset (offset + length)
      fun c => decodeInsn c pool labels offset := by
  have hpos := pos_of_insnLength hlength
  obtain ⟨format, hformat, hlength⟩ := insnLength_eq_ok.1 hlength
  have hop : ∀ {kind}, LooksWithin kind code offset (offset + length) fun c => u8At c offset :=
    .u8At inside (Nat.le_refl _) (by omega)
  have hread : LooksWithin (Fault.IsOfInsn code labels offset) code offset (offset + length)
      fun c => formatAt c offset :=
    .of_ok (hop.bind fun op _ => .const fun _ _ => trivial) hformat
  simp only [decodeInsn_eq]
  refine hop.bind fun op _ => hread.bind fun format' hformat' => ?_
  cases hformat.symm.trans hformat'
  cases format with
  | simple | shortVar => exact .pure _
  | pushByte =>
    cases hlength
    exact (LooksWithin.i8At inside (by omega) (by omega)).bind fun _ _ => .pure _
  | pushShort =>
    cases hlength
    exact (LooksWithin.i16At inside (by omega) (by omega)).bind fun _ _ => .pure _
  | arrayType | var =>
    cases hlength
    exact (LooksWithin.u8At inside (by omega) (by omega)).bind fun _ _ => .pure _
  | ldc =>
    cases hlength
    exact (LooksWithin.u8At inside (by omega) (by omega)).bind fun _ _ =>
      .const ((failsBy_decodeLoadable pool _ _).ofPool.bind fun _ _ => failsBy_pure _)
  | ldcWide wide =>
    cases hlength
    exact (LooksWithin.u16At inside (by omega) (by omega)).bind fun _ _ =>
      .const ((failsBy_decodeLoadable pool _ _).ofPool.bind fun _ _ => failsBy_pure _)
  | iinc =>
    cases hlength
    exact (LooksWithin.u8At inside (by omega) (by omega)).bind fun _ _ =>
      (LooksWithin.i8At inside (by omega) (by omega)).bind fun _ _ => .pure _
  | jump =>
    cases hlength
    exact (LooksWithin.i16At inside (by omega) (by omega)).bind fun _ hdelta => .const
      ((failsBy_jumpLabel fun _ => mem_targets_jump hformat hdelta).bind fun _ _ => failsBy_pure _)
  | wideJump opcode =>
    cases hlength
    exact (looksWithin_jumpLabelAt inside (by omega) (by omega) fun _ _ =>
      mem_targets_wideJump hformat).bind fun _ _ => .pure _
  | tableSwitch =>
    obtain ⟨count, hcount, hlength⟩ := bind_eq_ok.1 hlength
    cases hlength
    refine looksWithin_tableSwitch inside hformat hcount ?_
    simp only [tableSwitchLength, switchBase]
    omega
  | lookupSwitch =>
    obtain ⟨count, hcount, hlength⟩ := bind_eq_ok.1 hlength
    cases hlength
    refine looksWithin_lookupSwitch inside hformat hcount ?_
    simp only [lookupSwitchLength, switchBase]
    omega
  | field =>
    cases hlength
    exact (LooksWithin.u16At inside (by omega) (by omega)).bind fun _ _ =>
      .const ((failsBy_memberRef pool _).during.ofPool.bind fun _ _ => failsBy_pure _)
  | call kind =>
    have hleast : 3 ≤ length := by
      cases hlength
      split <;> decide
    exact (LooksWithin.u16At inside (by omega) (by omega)).bind fun _ _ =>
      .const ((failsBy_memberRef pool _).during.ofPool.bind fun _ _ => failsBy_pure _)
  | invokeDynamic =>
    cases hlength
    exact (LooksWithin.u16At inside (by omega) (by omega)).bind fun _ _ =>
      .const (failsBy_decodeComputedCall pool _).ofPool
  | type =>
    cases hlength
    exact (LooksWithin.u16At inside (by omega) (by omega)).bind fun _ _ =>
      .const ((failsBy_className pool _).during.ofPool.bind fun _ _ => failsBy_pure _)
  | wide =>
    obtain ⟨inner, hinner, hlength⟩ := bind_eq_ok.1 hlength
    have hleast : 4 ≤ length := by
      cases hlength
      split <;> decide
    refine (LooksWithin.u8At inside (by omega) (by omega)).bind fun inner' hinner' =>
      (LooksWithin.u16At inside (by omega) (by omega)).bind fun slot _ => ?_
    cases (orFail_eq_ok.1 hinner).symm.trans (orFail_eq_ok.1 hinner')
    split
    · rename_i hiinc
      rw [if_pos hiinc] at hlength
      cases hlength
      exact (LooksWithin.i16At inside (by omega) (by omega)).bind fun _ _ => .pure _
    · exact .pure _
  | multiANewArray =>
    cases hlength
    exact (LooksWithin.u16At inside (by omega) (by omega)).bind fun _ _ =>
      (LooksWithin.const (failsBy_className pool _).during.ofPool).bind fun _ _ =>
        (LooksWithin.u8At inside (by omega) (by omega)).bind fun _ _ => .pure _

end Insns

/-! ## 3. The scan -/

section Scans

variable {code : Array UInt8} {offset : Nat}

theorem failsBy_formatAt (h : offset < code.size) : FailsBy Fault.IsOfInput (formatAt code offset) :=
  (FailsBy.of_ok (orFail_eq_ok.2 (Array.getElem?_eq_getElem h))).bind fun _ _ => .orFail trivial

theorem failsBy_i16At (position : Nat) : FailsBy Fault.IsOfInput (i16At code position) :=
  (Reader.failsBy_u16At _ _).bind fun _ _ => failsBy_pure _

theorem failsBy_i32At (position : Nat) : FailsBy Fault.IsOfInput (i32At code position) :=
  (Reader.failsBy_u32At _ _).bind fun _ _ => failsBy_pure _

theorem failsBy_tableSizeAt : FailsBy Fault.IsOfInput (tableSizeAt code offset) := by
  refine (failsBy_i32At _).bind fun low _ => (failsBy_i32At _).bind fun high _ => ?_
  simp only
  split
  · exact failsBy_pure _
  · exact failsBy_fail trivial

theorem failsBy_pairCountAt : FailsBy Fault.IsOfInput (pairCountAt code offset) := by
  refine (failsBy_i32At _).bind fun count _ => ?_
  split
  · exact failsBy_fail trivial
  · exact failsBy_pure _

/-- The length of an instruction that begins inside the code is found, or the code ends too early. -/
theorem failsBy_insnLength (h : offset < code.size) :
    FailsBy Fault.IsOfInput (insnLength code offset) := by
  rw [insnLength_eq]
  refine (failsBy_formatAt h).bind fun format _ => ?_
  cases format with
  | tableSwitch => exact failsBy_tableSizeAt.bind fun _ _ => failsBy_pure _
  | lookupSwitch => exact failsBy_pairCountAt.bind fun _ _ => failsBy_pure _
  | wide => exact (FailsBy.orFail trivial).bind fun _ _ => failsBy_pure _
  | _ => exact failsBy_pure _

/-- So are its targets. -/
theorem failsBy_branchTargets (h : offset < code.size) :
    FailsBy Fault.IsOfInput (branchTargets code offset) := by
  have htarget : ∀ delta, FailsBy Fault.IsOfInput (branchTarget code offset delta) := by
    intro delta
    unfold branchTarget
    simp only
    split
    · exact failsBy_ok _
    · exact failsBy_fail trivial
  have hat : ∀ position, FailsBy Fault.IsOfInput (branchTargetAt code offset position) :=
    fun position => (failsBy_i32At position).bind fun _ _ => htarget _
  have hop : u8At code offset = .ok code[offset] :=
    orFail_eq_ok.2 (Array.getElem?_eq_getElem h)
  cases hf : Format.of? code[offset] with
  | none =>
    rw [branchTargets_of_none hop hf]
    exact failsBy_ok _
  | some format =>
    rw [branchTargets_eq (formatAt_eq_ok.2 ⟨_, hop, hf⟩)]
    cases format with
    | jump =>
      exact (failsBy_i16At _).bind fun _ _ => (htarget _).bind fun _ _ => failsBy_pure _
    | wideJump opcode => exact (hat _).bind fun _ _ => failsBy_pure _
    | tableSwitch =>
      exact (failsBy_i32At _).bind fun _ _ => (failsBy_i32At _).bind fun _ _ =>
        .mapM fun _ _ => hat _
    | lookupSwitch => exact (failsBy_i32At _).bind fun _ _ => .mapM fun _ _ => hat _
    | _ => exact failsBy_pure _

/-- **The scan looks for every byte before it uses it.** -/
theorem failsBy_scanFrom (found : CodeScan) : FailsBy Fault.IsOfInput (scanFrom code offset found) := by
  fun_induction scanFrom code offset found with
  | case1 offset found hlt ih =>
    refine (failsBy_insnLength hlt).bind fun length _ => ?_
    split
    · exact failsBy_fail trivial
    · rename_i hlength
      exact (failsBy_branchTargets hlt).bind fun targets _ => ih length hlength targets
  | case2 => exact failsBy_ok _

end Scans

/-! ## 4. Methods -/

section Methods

variable {pool : ConstantPool} {parts : CodeParts} {scan : CodeScan} {offsets : List Nat}

/-- Every offset that is referred to has a label. -/
theorem exists_at?_of_labelledOffsets (hscan : scanCode parts.code = .ok scan)
    (hoffsets : labelledOffsets parts scan = .ok offsets) {n : Nat}
    (hn : n ∈ referencedOffsets parts scan) :
    ∃ l, (labelTable (numberLabels offsets)).at? n = some l := by
  have hmem : n ∈ offsets := by
    obtain ⟨hplaces, rfl⟩ := labelledOffsets_eq_ok.1 hoffsets
    exact List.mem_filter.2 ⟨hplaces n hn, decide_eq_true hn⟩
  obtain ⟨l, hl⟩ := exists_label hmem
  exact ⟨l, at?_labelTable (nodup_labelledOffsets hscan hoffsets) hl⟩

theorem failsBy_labelledOffsets : FailsBy Fault.IsOfInput (labelledOffsets parts scan) := by
  unfold labelledOffsets
  simp only
  split
  · exact failsBy_fail trivial
  · exact failsBy_pure _

/-- A region or record at offsets with labels. -/
theorem failsBy_decodeHandler {labels : LabelTable} {h : RawHandler}
    (has : ∀ n ∈ [h.start, h.stop, h.handler], ∃ l, labels.at? n = some l) :
    FailsBy Fault.IsOfInput (decodeHandler pool labels h) := by
  have hget : ∀ n ∈ [h.start, h.stop, h.handler], FailsBy Fault.IsOfInput (labels.get n) := by
    intro n hn
    obtain ⟨l, hl⟩ := has n hn
    exact .of_ok (get_eq_ok_of_at? hl)
  have hrest : ∀ catchType, FailsBy Fault.IsOfInput (do
      let start ← labels.get h.start
      let stop ← labels.get h.stop
      let handler ← labels.get h.handler
      return { start, stop, handler, catchType } : Outcome Handler) := fun _ =>
    (hget h.start (by simp)).bind fun _ _ => (hget h.stop (by simp)).bind fun _ _ =>
      (hget h.handler (by simp)).bind fun _ _ => failsBy_pure _
  unfold decodeHandler
  simp only
  split
  · exact (failsBy_pure none).bind fun _ _ => hrest _
  · have hname : FailsBy Fault.IsOfInput (pool.className h.catchType) :=
      (failsBy_className pool _).imp fun _ => Fault.IsOfPool.isOfInput
    exact (hname.during.map some).bind fun _ _ => hrest _

theorem failsBy_decodeLocal {labels : LabelTable} {r : RawLocal}
    (has : ∀ n ∈ [r.start, r.stop], ∃ l, labels.at? n = some l) :
    FailsBy Fault.IsOfInput (decodeLocal pool labels r) := by
  have hget : ∀ n ∈ [r.start, r.stop], FailsBy Fault.IsOfInput (labels.get n) := by
    intro n hn
    obtain ⟨l, hl⟩ := has n hn
    exact .of_ok (get_eq_ok_of_at? hl)
  have htext : ∀ index, FailsBy Fault.IsOfInput (pool.text index) :=
    fun index => (failsBy_text pool index).imp fun _ => Fault.IsOfPool.isOfInput
  exact (htext _).during.bind fun _ _ => (htext _).during.bind fun _ _ =>
    (hget r.start (by simp)).bind fun _ _ => (hget r.stop (by simp)).bind fun _ _ => failsBy_pure _

/-- An instruction that the scan came to has labels wherever it may jump to. -/
theorem failsBy_nodesAt (hscan : scanCode parts.code = .ok scan)
    (hoffsets : labelledOffsets parts scan = .ok offsets) {n : Nat} (hn : n ∈ scan.starts.toList)
    (lines : Std.HashMap Nat (List UInt16)) :
    FailsBy Fault.IsOfInput (nodesAt parts pool (labelTable (numberLabels offsets)) lines n) := by
  obtain ⟨length, targets, hlength, hinside, htargets, hcollected⟩ := inside_of_scanCode hscan hn
  have hinsn : FailsBy _ (decodeInsn parts.code pool (labelTable (numberLabels offsets)) n) :=
    (looksWithin_decodeInsn hlength hinside).fails
  refine FailsBy.bind (hinsn.imp fun f hf => ?_).during fun _ _ => failsBy_pure _
  rcases hf with hf | ⟨t, rfl, hnone, hmem⟩
  · exact hf.isOfInput
  · obtain ⟨l, hl⟩ := exists_at?_of_labelledOffsets hscan hoffsets
      (List.mem_append_left _ (hcollected t (hmem targets htargets)))
    rw [hnone] at hl
    cases hl

/-- **Decoding a method fails only over its bytes**, whatever they are. -/
theorem failsBy_decodeMethod (pool : ConstantPool) (blank : Method) (body : Bytes) :
    FailsBy Fault.IsOfInput (decodeMethod pool blank body) := by
  refine (CodeParts.failsBy_read pool body).bind fun parts _ =>
    (failsBy_scanFrom _).bind fun scan hscan => failsBy_labelledOffsets.bind fun offsets hoffsets => ?_
  have htable : ∀ n ∈ parts.tableOffsets, ∃ l, (labelTable (numberLabels offsets)).at? n = some l :=
    fun n hn => exists_at?_of_labelledOffsets hscan hoffsets (List.mem_append_right _ hn)
  have hlocal : ∀ r ∈ parts.locals ++ parts.localTypes, FailsBy Fault.IsOfInput
      (decodeLocal pool (labelTable (numberLabels offsets)) r) := fun r hr =>
    failsBy_decodeLocal fun n hn => htable n (List.mem_append_left _ (List.mem_append_right _
      (List.mem_flatMap.2 ⟨r, hr, hn⟩)))
  have hhandler : ∀ h ∈ parts.handlers, FailsBy Fault.IsOfInput
      (decodeHandler pool (labelTable (numberLabels offsets)) h) := fun h hh =>
    failsBy_decodeHandler fun n hn => htable n (List.mem_append_left _ (List.mem_append_left _
      (List.mem_flatMap.2 ⟨h, hh, hn⟩)))
  exact (FailsBy.mapM fun n hn => failsBy_nodesAt hscan hoffsets hn _).bind fun _ _ =>
    (FailsBy.mapM hhandler).bind fun _ _ =>
      (FailsBy.mapM fun r hr => hlocal r (List.mem_append_left _ hr)).bind fun _ _ =>
        (FailsBy.mapM fun r hr => hlocal r (List.mem_append_right _ hr)).bind fun _ _ =>
          failsBy_pure _

end Methods

/-- **Every call that is decoded has its kind**, whatever the code is. -/
theorem failsBy_decodeInsn {pool : ConstantPool} {code : Array UInt8}
    {labels : LabelTable} {offset : Nat} :
    FailsBy (· ≠ .missingCallKind) (decodeInsn code pool labels offset) := by
  have hu8 : ∀ i, FailsBy (· ≠ .missingCallKind) (u8At code i) := fun _ => .orFail nofun
  have hi8 : ∀ i, FailsBy (· ≠ .missingCallKind) (i8At code i) := fun i =>
    (hu8 i).bind fun _ _ => failsBy_pure _
  have hinput : ∀ f : Fault, f.IsOfInput → f ≠ .missingCallKind := by
    rintro f hf rfl
    exact hf
  have hu16 : ∀ i, FailsBy (· ≠ .missingCallKind) (u16At code i) := fun i =>
    (Reader.failsBy_u16At _ i).imp hinput
  have hi16 : ∀ i, FailsBy (· ≠ .missingCallKind) (i16At code i) := fun i =>
    (failsBy_i16At i).imp hinput
  have hi32 : ∀ i, FailsBy (· ≠ .missingCallKind) (i32At code i) := fun i =>
    (failsBy_i32At i).imp hinput
  have hpool : ∀ f : Fault, f.IsOfPool → f ≠ .missingCallKind := fun f hf => hinput f hf.isOfInput
  have hlabel : ∀ delta, FailsBy (· ≠ .missingCallKind) (jumpLabel labels offset delta) :=
    fun _ => .orFail nofun
  have hat : ∀ i, FailsBy (· ≠ .missingCallKind) (jumpLabelAt code labels offset i) := fun i =>
    (hi32 i).bind fun _ _ => hlabel _
  have hformat : FailsBy (· ≠ .missingCallKind) (formatAt code offset) :=
    (hu8 offset).bind fun op _ => .orFail (f := .unsupportedOpcode op) nofun
  rw [decodeInsn_eq]
  refine (hu8 offset).bind fun op _ => hformat.bind fun format _ => ?_
  cases format with
  | simple | shortVar => exact failsBy_pure _
  | pushByte => exact (hi8 _).bind fun _ _ => failsBy_pure _
  | pushShort => exact (hi16 _).bind fun _ _ => failsBy_pure _
  | arrayType | var => exact (hu8 _).bind fun _ _ => failsBy_pure _
  | ldc =>
    exact (hu8 _).bind fun _ _ => ((failsBy_decodeLoadable pool _ _).imp hpool).bind fun _ _ =>
      failsBy_pure _
  | ldcWide =>
    exact (hu16 _).bind fun _ _ => ((failsBy_decodeLoadable pool _ _).imp hpool).bind fun _ _ =>
      failsBy_pure _
  | iinc => exact (hu8 _).bind fun _ _ => (hi8 _).bind fun _ _ => failsBy_pure _
  | jump => exact (hi16 _).bind fun _ _ => (hlabel _).bind fun _ _ => failsBy_pure _
  | wideJump => exact (hat _).bind fun _ _ => failsBy_pure _
  | tableSwitch =>
    exact (hat _).bind fun _ _ => (hi32 _).bind fun _ _ => (hi32 _).bind fun _ _ =>
      (FailsBy.orFail nofun).bind fun _ _ => (FailsBy.mapM fun _ _ => hat _).bind fun _ _ =>
        failsBy_pure _
  | lookupSwitch =>
    exact (hat _).bind fun _ _ => (hi32 _).bind fun _ _ =>
      (FailsBy.mapM fun _ _ => (hi32 _).bind fun _ _ => (hat _).bind fun _ _ => failsBy_pure _).bind
        fun _ _ => failsBy_pure _
  | field | call =>
    exact (hu16 _).bind fun _ _ => ((failsBy_memberRef pool _).imp hpool).during.bind fun _ _ =>
      failsBy_pure _
  | invokeDynamic =>
    exact (hu16 _).bind fun _ _ => (failsBy_decodeComputedCall pool _).imp hpool
  | type =>
    exact (hu16 _).bind fun _ _ => ((failsBy_className pool _).imp hpool).during.bind fun _ _ =>
      failsBy_pure _
  | wide =>
    refine (hu8 _).bind fun _ _ => (hu16 _).bind fun _ _ => ?_
    split
    · exact (hi16 _).bind fun _ _ => failsBy_pure _
    · exact failsBy_pure _
  | multiANewArray =>
    exact (hu16 _).bind fun _ _ => ((failsBy_className pool _).imp hpool).during.bind fun _ _ =>
      (hu8 _).bind fun _ _ => failsBy_pure _

/-- What holds of an instruction of some length that ends inside the code. -/
structure StaysInside (pool : ConstantPool) (code : Array UInt8) (offset length : Nat) : Prop where
  /-- It is decoded from its own bytes. -/
  same : ∀ (labels : LabelTable) (code' : Array UInt8),
    (∀ i, offset ≤ i → i < offset + length → code'[i]? = code[i]?) →
      decodeInsn code' pool labels offset = decodeInsn code pool labels offset
  /-- All of them are there. -/
  inside : ∀ labels e bits, decodeInsn code pool labels offset = .error e →
    e.fault ≠ .wordOutOfBounds bits
  /-- A label is lacking only where the instruction may jump to. -/
  lacking : ∀ labels e n targets, branchTargets code offset = .ok targets →
    decodeInsn code pool labels offset = .error e → e.fault = .noLabelAt n →
      n ∈ targets ∧ labels.at? n = none
  /-- It jumps wherever it may jump to. -/
  jumps : ∀ labels i targets, branchTargets code offset = .ok targets →
    decodeInsn code pool labels offset = .ok i →
      List.Forall₂ (fun n l => labels.at? n = some l) targets i.targets

theorem staysInside_of_insnLength {pool : ConstantPool} {code : Array UInt8} {offset length : Nat}
    (hlength : insnLength code offset = .ok length) (inside : offset + length ≤ code.size) :
    StaysInside pool code offset length where
  same labels := (looksWithin_decodeInsn hlength inside).same
  inside labels e bits he hfault := by
    rcases (looksWithin_decodeInsn hlength inside).fails e he with h | ⟨n, h, -⟩
    · rw [hfault] at h
      exact h
    · rw [hfault] at h
      cases h
  lacking labels e n targets htargets he hfault := by
    rcases (looksWithin_decodeInsn hlength inside).fails e he with h | ⟨n', h, hnone, hmem⟩
    · rw [hfault] at h
      exact h.elim
    · rw [hfault] at h
      cases h
      exact ⟨hmem targets htargets, hnone⟩
  jumps labels i targets htargets hi := labels_of_targets hi htargets

/-- **Decoding never takes a byte that is not there**, whatever the bytes and the pool are. A method is
    decoded, or fails over its bytes: no byte is missing that was not looked for, no label is missing
    where there should be one, and no call lacks its kind. In detail, the length and the targets of an
    instruction that begins inside the code are found the same way; every instruction takes at least one
    byte; one that ends inside the code is decoded from its own bytes and jumps to its targets; and
    wherever a call is decoded, it has its kind. -/
theorem decodeMethod_inBounds (pool : ConstantPool) (blank : Method) (body : Bytes) :
    (∀ e, decodeMethod pool blank body = .error e →
      e.fault ≠ .wordOutOfBounds 8 ∧ (∀ n, e.fault ≠ .noLabelAt n) ∧ e.fault ≠ .missingCallKind) ∧
    (∀ code offset, offset < code.size →
      (∀ e, insnLength code offset = .error e → e.fault ≠ .wordOutOfBounds 8) ∧
        ∀ e, branchTargets code offset = .error e → e.fault ≠ .wordOutOfBounds 8) ∧
    (∀ code offset length, insnLength code offset = .ok length →
      0 < length ∧ (offset + length ≤ code.size → StaysInside pool code offset length)) ∧
    ∀ code labels offset e, decodeInsn code pool labels offset = .error e →
      e.fault ≠ .missingCallKind := by
  have hword : ∀ {f : Fault}, f.IsOfInput → f ≠ .wordOutOfBounds 8 := by
    rintro f hf rfl
    exact hf rfl
  refine ⟨fun e he => ?_, fun code offset hlt => ⟨fun e he => ?_, fun e he => ?_⟩,
    fun code offset length hlength => ⟨pos_of_insnLength hlength, staysInside_of_insnLength hlength⟩,
    fun code labels offset => failsBy_decodeInsn⟩
  · have hinput := failsBy_decodeMethod pool blank body e he
    refine ⟨hword hinput, fun n hn => ?_, fun hkind => ?_⟩
    · rw [hn] at hinput
      exact hinput
    · rw [hkind] at hinput
      exact hinput
  · exact hword (failsBy_insnLength hlt e he)
  · exact hword (failsBy_branchTargets hlt e he)

/-- Code that ends behind a prefix. -/
def lonePrefix : Bytes :=
  [0, 0, 0, 0, 0, 0, 0, 1, Opcode.wide, 0, 0, 0, 0]

theorem decodeMethod_lonePrefix :
    decodeMethod .empty default lonePrefix = .error ⟨[], .missingWideOpcode⟩ := by
  have hread : CodeParts.read .empty lonePrefix = .ok {
      maxStack := 0, maxLocals := 0, code := #[Opcode.wide], handlers := [] } := by cbv
  have hscan : scanCode #[Opcode.wide] = .error ⟨[], .missingWideOpcode⟩ := by
    rw [scanCode, scanFrom]
    rfl
  unfold decodeMethod
  rw [hread]
  show (scanCode #[Opcode.wide] >>= _) = _
  rw [hscan]
  rfl

/-- A call of an interface that has no method to call. -/
def lonelyCall : Array UInt8 :=
  #[Opcode.invokeInterface, 0, 0, 1, 0]

/-- What the prefix stands before is missed, and so is a displacement that ends behind the code. A jump
    to itself is decoded from its three bytes. A call without a method is missed for its slot. -/
theorem decodeMethod_inBounds_lonePrefix :
    (decodeMethod .empty default lonePrefix = .error ⟨[], .missingWideOpcode⟩ ∧
      Fault.missingWideOpcode ≠ .wordOutOfBounds 8 ∧ (∀ n, Fault.missingWideOpcode ≠ .noLabelAt n) ∧
      Fault.missingWideOpcode ≠ .missingCallKind) ∧
    (insnLength #[Opcode.wide] 0 = .error ⟨[], .missingWideOpcode⟩ ∧
      Fault.missingWideOpcode ≠ .wordOutOfBounds 8) ∧
    (branchTargets #[Opcode.goto, 0] 0 = .error ⟨[], .wordOutOfBounds 16⟩ ∧
      Fault.wordOutOfBounds 16 ≠ .wordOutOfBounds 8) ∧
    (insnLength #[Opcode.goto, 0, 0, 0xb1] 0 = .ok 3 ∧ 0 < 3 ∧
      StaysInside .empty #[Opcode.goto, 0, 0, 0xb1] 0 3) ∧
    decodeInsn lonelyCall .empty ∅ 0 = .error ⟨[.resolvingMethod], .invalidSlot 0⟩ ∧
      Fault.invalidSlot 0 ≠ .missingCallKind := by
  obtain ⟨hdecode, hscan, hinsn, hcall⟩ := decodeMethod_inBounds .empty default lonePrefix
  have hlone : insnLength #[Opcode.wide] 0 = .error ⟨[], .missingWideOpcode⟩ := rfl
  have hjump : branchTargets #[Opcode.goto, 0] 0 = .error ⟨[], .wordOutOfBounds 16⟩ := rfl
  have hlength : insnLength #[Opcode.goto, 0, 0, 0xb1] 0 = .ok 3 := rfl
  have hlonely : decodeInsn lonelyCall .empty ∅ 0 =
      .error ⟨[.resolvingMethod], .invalidSlot 0⟩ := rfl
  obtain ⟨hpos, hinside⟩ := hinsn _ _ _ hlength
  exact ⟨⟨decodeMethod_lonePrefix, hdecode _ decodeMethod_lonePrefix⟩,
    ⟨hlone, (hscan _ 0 (by decide)).1 _ hlone⟩, ⟨hjump, (hscan _ 0 (by decide)).2 _ hjump⟩,
    ⟨hlength, hpos, hinside (by decide)⟩, hlonely, hcall _ _ _ _ hlonely⟩

end Rewire
