import Mathlib
import Rewire.Proofs.Code.LaidOut
import Rewire.Proofs.Code.Origins
import Rewire.Proofs.Pattern.Removal

/-!
# Scopes of local variables

A predicate on local variables compares the positions of nodes, while the table of a class file gives
ranges of offsets. In a method as it was decoded these are the same. This file shows

* that an instruction accesses the variable that its bytes say (`accessAt?_of_decode`);
* that a decoded record is in scope at an instruction exactly if its range covers the offset of the
  instruction, or begins where a store ends (`inScope_iff`);
* so the predicates on loads and stores hold exactly where the first such record of the table is
  accepted (`locals_of_decode`).
-/

namespace Rewire

/-! ## 1. Accesses -/

/-- The opcode and the slot with which the instruction at an offset loads or stores a local variable,
    or returns to the address in it. -/
def accessAt? (code : Array UInt8) (offset : Nat) : Option (UInt8 × UInt16) :=
  match formatAt code offset with
  | .ok .var => do
    let op ← (u8At code offset).toOption
    let slot ← (u8At code (offset + 1)).toOption
    return (op, slot.toUInt16)
  | .ok (.shortVar op slot) => some (op, slot)
  | .ok .wide => do
    let op ← (u8At code (offset + 1)).toOption
    let slot ← (u16At code (offset + 2)).toOption
    if op = Opcode.iinc then none else return (op, slot)
  | _ => none

/-- The opcode and the slot of an instruction that has a local variable for its operand. -/
def Insn.access? : Insn → Option (UInt8 × UInt16)
  | var op slot => some (op, slot)
  | _ => none

/-- **A decoded instruction accesses the variable that its bytes say.** -/
theorem accessAt?_of_decode {code : Array UInt8} {pool : ConstantPool} {labels : LabelTable}
    {offset : Nat} {i : Insn} (h : decodeInsn code pool labels offset = .ok i) :
    accessAt? code offset = i.access? := by
  obtain ⟨_, format, -, hformat, hi⟩ := decodedAs_of_decode h
  obtain ⟨op, format', hop, hformat', h⟩ := decodeInsn_eq_ok.1 h
  cases hformat.symm.trans hformat'
  rw [accessAt?, hformat]
  cases hi with
  | var =>
    obtain ⟨slot, hslot, h⟩ := bind_eq_ok.1 h
    cases h
    simp only [hop, hslot]
    rfl
  | wideVar =>
    obtain ⟨inner, hinner, h⟩ := bind_eq_ok.1 h
    obtain ⟨slot, hslot, h⟩ := bind_eq_ok.1 h
    split at h
    · obtain ⟨delta, -, h⟩ := bind_eq_ok.1 h
      cases h
    · rename_i hother
      cases h
      simp only [hinner, hslot]
      exact if_neg hother
  | wideIinc =>
    obtain ⟨inner, hinner, h⟩ := bind_eq_ok.1 h
    obtain ⟨slot, hslot, h⟩ := bind_eq_ok.1 h
    split at h
    · rename_i hiinc
      simp only [hinner, hslot]
      exact if_pos hiinc
    · cases h
  | invokeDynamic hcall =>
    obtain ⟨name, descriptor, rfl, -⟩ := computedCall_eq hcall
    rfl
  | _ => rfl

/-! ## 2. Records -/

/-- Whether an offset is in the range of a record. -/
def RawLocal.Covers (raw : RawLocal) (offset : Nat) : Prop :=
  raw.start ≤ offset ∧ offset < raw.stop

instance (raw : RawLocal) (offset : Nat) : Decidable (raw.Covers offset) :=
  inferInstanceAs (Decidable (_ ∧ _))

/-- Whether a filter accepts the name and the descriptor that a record refers to. -/
def LocalFilter.AcceptsEntry (pool : ConstantPool) (f : LocalFilter) (raw : RawLocal) : Prop :=
  ∃ name descriptor, pool.text raw.name = .ok name ∧ pool.text raw.descriptor = .ok descriptor ∧
    Rewire.accepts f.name name = true ∧ Rewire.accepts f.descriptor descriptor = true

section Records

variable {pool : ConstantPool} {labels : LabelTable} {raw : RawLocal} {r : LocalRecord}

/-- A decoded record has the slot, the name and the descriptor of its entry. -/
theorem texts_of_decodeLocal (h : decodeLocal pool labels raw = .ok r) :
    r.slot = raw.slot ∧ pool.text raw.name = .ok r.name ∧
      pool.text raw.descriptor = .ok r.descriptor := by
  obtain ⟨name, hname, h⟩ := bind_eq_ok.1 h
  obtain ⟨descriptor, hdescriptor, h⟩ := bind_eq_ok.1 h
  obtain ⟨start, -, h⟩ := bind_eq_ok.1 h
  obtain ⟨stop, -, h⟩ := bind_eq_ok.1 h
  cases h
  exact ⟨rfl, during_eq_ok.1 hname, during_eq_ok.1 hdescriptor⟩

theorem accepts_iff_of_decodeLocal (h : decodeLocal pool labels raw = .ok r) (f : LocalFilter) :
    f.accepts r = true ↔ f.AcceptsEntry pool raw := by
  obtain ⟨-, hname, hdescriptor⟩ := texts_of_decodeLocal h
  unfold LocalFilter.accepts
  rw [Bool.and_eq_true]
  constructor
  · rintro ⟨h₁, h₂⟩
    exact ⟨r.name, r.descriptor, hname, hdescriptor, h₁, h₂⟩
  · rintro ⟨name, descriptor, hname', hdescriptor', h₁, h₂⟩
    cases hname.symm.trans hname'
    cases hdescriptor.symm.trans hdescriptor'
    exact ⟨h₁, h₂⟩

/-- Lists whose elements agree pairwise agree in the first element of a kind. -/
theorem any_find?_of_forall₂ {α β : Type} {R : α → β → Prop} {p : α → Bool} {q g : β → Bool}
    {P : α → Prop} {as : List α} {bs : List β} (h : List.Forall₂ R as bs)
    (same : ∀ a b, R a b → p a = q b) (agree : ∀ a b, R a b → (g b = true ↔ P a)) :
    (bs.find? q).any g = true ↔ ∃ a, as.find? p = some a ∧ P a := by
  induction h with
  | nil => simp
  | @cons a b as bs hab _ ih =>
    rw [List.find?_cons, List.find?_cons, ← same a b hab]
    cases p a with
    | true => simpa using agree a b hab
    | false => exact ih

end Records

/-! ## 3. Positions and offsets -/

theorem insnsBefore_skipMarkers {nodes : Array Node} {k : Nat} (hk : k ≤ nodes.size) :
    insnsBefore nodes.toList (skipMarkers nodes k) = insnsBefore nodes.toList k := by
  fun_induction skipMarkers nodes k with
  | case1 k hlt hmarker ih =>
    have hnode : nodes.toList[k]? = some nodes[k] := by
      rw [Array.getElem?_toList, Array.getElem?_eq_getElem hlt]
    have hnone : nodes[k].insn? = none := by
      cases hn : nodes[k] with
      | insn i =>
        rw [hn] at hmarker
        cases hmarker
      | _ => rfl
    rw [ih hlt, insnsBefore_succ hnode, hnone]
    rfl
  | case2 => rfl
  | case3 k hge =>
    rw [show nodes.size = k by omega]

section Decoded

variable {pool : ConstantPool} {blank m : Method} {body : Bytes} {parts : CodeParts}
  {scan : CodeScan} {o : CodeOrigin}

theorem labelsDistinct_of_decode (h : decodeMethod pool blank body = .ok m) : m.LabelsDistinct := by
  rw [Method.LabelsDistinct, placedLabels_of_decode h]
  exact List.nodup_range.map fun a b hab => Label.mk.inj hab

/-- **A label is found where its offset is.** -/
theorem labelPosition?_of_get (h : decodeMethod pool blank body = .ok m)
    (hread : CodeParts.read pool body = .ok parts) (hscan : scanCode parts.code = .ok scan)
    (ho : m.origin = some o) {l : Label} {n : Nat} (hl : (labelTable o.labelOffsets).get n = .ok l) :
    ∃ k, m.labelPosition? l = some k ∧ m.nodes[k]? = some (.label l) ∧
      oldOffset scan.starts.toList parts.code.size m.nodes.toList k = n := by
  obtain ⟨offsets, hlabels, nodup, -⟩ := labelOffsets_of_decode h ho
  have hat := orFail_eq_ok.1 hl
  rw [hlabels] at hat
  have hmem := mem_of_at? nodup hat
  rw [← hlabels] at hmem
  obtain ⟨k, hk, hoffset⟩ := exists_position h hread hscan ho hmem
  rw [Array.getElem?_toList] at hk
  exact ⟨k, (Method.labelPosition?_eq_some (labelsDistinct_of_decode h)).2 hk, hk, hoffset⟩

/-- What decoding says of an instruction: where it starts, what it is read from, how long it is, and
    that what follows it comes from where it ends. -/
theorem next_of_decode (h : decodeMethod pool blank body = .ok m)
    (hread : CodeParts.read pool body = .ok parts) (hscan : scanCode parts.code = .ok scan)
    {k : Nat} {i : Insn} (hk : m.nodes[k]? = some (.insn i)) :
    ∃ pc length labels, scan.starts.toList[insnsBefore m.nodes.toList k]? = some pc ∧
      decodeInsn parts.code pool labels pc = .ok i ∧ insnLength parts.code pc = .ok length ∧
      oldOffset scan.starts.toList parts.code.size m.nodes.toList k = pc ∧
      oldOffset scan.starts.toList parts.code.size m.nodes.toList (k + 1) = pc + length := by
  obtain ⟨o, ho, -⟩ := exists_origin_of_decode h hread
  have comes := comesFrom_of_decode h hread hscan ho
  have hk' : m.nodes.toList[k]? = some (.insn i) := by rw [Array.getElem?_toList, hk]
  have hstart := comes.getElem?_starts hk'
  obtain ⟨length, hlength, hnext⟩ := (next_of_scanCode hscan).2 _ _ hstart
  refine ⟨_, length, _, hstart, comes.nodeAt k _ hk', hlength, rfl, ?_⟩
  have hplace := comes.getElem?_places (k + 1)
  rw [insnsBefore_succ hk'] at hplace
  exact Option.some.inj (hplace.symm.trans hnext)

/-- **Scopes are ranges of offsets.** A decoded record is in scope at an instruction exactly if its
    range covers the instruction, or, after a store, if it begins where the instruction ends. -/
theorem inScope_iff (h : decodeMethod pool blank body = .ok m)
    (hread : CodeParts.read pool body = .ok parts) (hscan : scanCode parts.code = .ok scan)
    (ho : m.origin = some o) {raw : RawLocal} {r : LocalRecord}
    (hr : decodeLocal pool (labelTable o.labelOffsets) raw = .ok r) {k pc length : Nat} {i : Insn}
    (hk : m.nodes[k]? = some (.insn i))
    (hpc : oldOffset scan.starts.toList parts.code.size m.nodes.toList k = pc)
    (hnext : oldOffset scan.starts.toList parts.code.size m.nodes.toList (k + 1) = pc + length)
    (store : Bool) :
    m.inScope store k r = true ↔ raw.Covers pc ∨ store = true ∧ raw.start = pc + length := by
  have comes := comesFrom_of_decode h hread hscan ho
  have hk' : m.nodes.toList[k]? = some (.insn i) := by rw [Array.getElem?_toList, hk]
  obtain ⟨hstart, hstop⟩ := labels_of_decodeLocal hr
  obtain ⟨a, ha, hplace, hstart⟩ := labelPosition?_of_get h hread hscan ho hstart
  obtain ⟨b, hb, -, hstop⟩ := labelPosition?_of_get h hread hscan ho hstop
  have hbegins : a ≤ k ↔ raw.start ≤ pc := by
    rw [← hstart, ← hpc]
    exact ⟨comes.mono, comes.le_of_le hk'⟩
  have hends : k < b ↔ pc < raw.stop := by
    rw [← hstop, ← hpc]
    exact comes.lt_iff hk'
  have hafter : k < a ∧ a < skipMarkers m.nodes (k + 1) ↔ raw.start = pc + length := by
    rw [← hstart, ← hnext]
    have hsize : k + 1 ≤ m.nodes.size := (Array.getElem?_eq_some_iff.1 hk).1
    constructor
    · -- between an instruction and the next one all nodes come from one offset
      rintro ⟨hka, hskip⟩
      have hlow : insnsBefore m.nodes.toList (k + 1) ≤ insnsBefore m.nodes.toList a :=
        insnsBefore_mono hka
      have hhigh : insnsBefore m.nodes.toList a ≤ insnsBefore m.nodes.toList (k + 1) :=
        insnsBefore_skipMarkers hsize ▸ insnsBefore_mono hskip.le
      rw [oldOffset, oldOffset, Nat.le_antisymm hlow hhigh]
    · intro heq
      have hka : k < a := (comes.lt_iff hk').2 (heq ▸ comes.lt_succ hk')
      refine ⟨hka, Nat.lt_of_not_le fun hle => ?_⟩
      have hlt : a < m.nodes.size := (Array.getElem?_eq_some_iff.1 hplace).1
      obtain ⟨i', hi'⟩ := exists_insn_of_skipMarkers_lt (Nat.lt_of_le_of_lt hle hlt)
      have hne : skipMarkers m.nodes (k + 1) ≠ a := by
        rintro rfl
        cases hplace.symm.trans hi'
      have hi'' : m.nodes.toList[skipMarkers m.nodes (k + 1)]? = some (.insn i') := by
        rw [Array.getElem?_toList, hi']
      -- the next instruction would come from a smaller offset than the label behind it
      have hbelow := (comes.lt_iff hi'').1 (Nat.lt_of_le_of_ne hle hne)
      rw [heq, oldOffset, oldOffset, insnsBefore_skipMarkers hsize] at hbelow
      exact Nat.lt_irrefl _ hbelow
  unfold Method.inScope
  simp only [ha, hb, Bool.or_eq_true, Bool.and_eq_true, decide_eq_true_eq, and_assoc]
  rw [hbegins, hends, hafter]
  rfl

/-! ## 4. Predicates -/

/-- The first record of a table for a slot that is in scope, and whether a filter accepts it, are found
    in the entries. -/
theorem activeLocal?_iff (h : decodeMethod pool blank body = .ok m)
    (hread : CodeParts.read pool body = .ok parts) (hscan : scanCode parts.code = .ok scan)
    {k pc length : Nat} {i : Insn} (hk : m.nodes[k]? = some (.insn i))
    (hpc : oldOffset scan.starts.toList parts.code.size m.nodes.toList k = pc)
    (hnext : oldOffset scan.starts.toList parts.code.size m.nodes.toList (k + 1) = pc + length)
    (store : Bool) (slot : UInt16) (f : LocalFilter) :
    (m.activeLocal? store k slot).any f.accepts = true ↔
      ∃ raw, parts.locals.find? (fun raw => decide (raw.slot = slot ∧
        (raw.Covers pc ∨ store = true ∧ raw.start = pc + length))) = some raw ∧
        f.AcceptsEntry pool raw := by
  obtain ⟨parts', scan', offsets, _, _, locals, _, hread', hscan', -, -, -, hlocals, -, hmethod⟩ :=
    decodeMethod_eq_ok.1 h
  cases hread.symm.trans hread'
  cases hscan.symm.trans hscan'
  have ho : m.origin = some (parts.origin offsets) := congrArg Method.origin hmethod
  have hrecords : m.locals = locals := congrArg Method.locals hmethod
  rw [Method.activeLocal?, hrecords]
  refine any_find?_of_forall₂ (mapM_eq_ok.1 hlocals) (fun raw r hr => ?_) fun raw r hr =>
    accepts_iff_of_decodeLocal hr f
  rw [Bool.eq_iff_iff, decide_eq_true_eq, Bool.and_eq_true, beq_iff_eq,
    inScope_iff h hread hscan ho hr hk hpc hnext, (texts_of_decodeLocal hr).1]

section Tests

variable {k : Nat} {i : Insn} (f : LocalFilter)

theorem test_load (hk : m.nodes[k]? = some (.insn i)) :
    (Predicate.load f).test m k = i.access?.any fun access =>
      decide (Opcode.IsLoad access.1) && (m.activeLocal? false k access.2).any f.accepts := by
  rw [Predicate.test, hk]
  cases i <;> rfl

theorem test_store (hk : m.nodes[k]? = some (.insn i)) :
    (Predicate.store f).test m k = i.access?.any fun access =>
      decide (Opcode.IsStore access.1) && (m.activeLocal? true k access.2).any f.accepts := by
  rw [Predicate.test, hk]
  cases i <;> rfl

end Tests

/-- **Predicates on local variables follow the table of the class file.** An instruction of a decoded
    method starts at an offset `pc` and takes `length` bytes. It satisfies a predicate on loads exactly
    if it loads a slot, and the first record for the slot whose range covers `pc` is accepted; and one
    on stores exactly if it stores to a slot, and the first record for the slot whose range covers `pc`
    or begins right behind the instruction is accepted. -/
theorem locals_of_decode (h : decodeMethod pool blank body = .ok m)
    (hread : CodeParts.read pool body = .ok parts) (hscan : scanCode parts.code = .ok scan)
    {k : Nat} {i : Insn} (hk : m.nodes[k]? = some (.insn i)) :
    ∃ pc length, scan.starts.toList[insnsBefore m.nodes.toList k]? = some pc ∧
      insnLength parts.code pc = .ok length ∧ ∀ f : LocalFilter,
        ((Predicate.load f).test m k = true ↔ ∃ op slot raw,
          accessAt? parts.code pc = some (op, slot) ∧ Opcode.IsLoad op ∧
          parts.locals.find? (fun raw => decide (raw.slot = slot ∧ raw.Covers pc)) = some raw ∧
          f.AcceptsEntry pool raw) ∧
        ((Predicate.store f).test m k = true ↔ ∃ op slot raw,
          accessAt? parts.code pc = some (op, slot) ∧ Opcode.IsStore op ∧
          parts.locals.find? (fun raw => decide (raw.slot = slot ∧
            (raw.Covers pc ∨ raw.start = pc + length))) = some raw ∧
          f.AcceptsEntry pool raw) := by
  obtain ⟨pc, length, labels, hstart, hdecode, hlength, hpc, hnext⟩ :=
    next_of_decode h hread hscan hk
  refine ⟨pc, length, hstart, hlength, fun f => ?_⟩
  have hactive := fun store slot => activeLocal?_iff h hread hscan hk hpc hnext store slot f
  rw [test_load f hk, test_store f hk, ← accessAt?_of_decode hdecode]
  simp only [Option.any_eq_true, Prod.exists, Bool.and_eq_true, decide_eq_true_eq, hactive,
    Bool.false_eq_true, false_and, or_false, true_and, exists_and_left]

end Decoded

/-! ### A slot that is used twice -/

namespace reusedSlot

open ConstantPool

/-- A pool with the name of the table of local variables, two names and a descriptor. -/
def pool : ConstantPool :=
  (((empty.push (.utf8 (Modified.encodeText AttributeName.locals))).push
    (.utf8 (Modified.encodeText "a"))).push (.utf8 (Modified.encodeText "b"))).push
    (.utf8 (Modified.encodeText "I"))

/-- The code of a method that stores zero in slot 1 and loads it again. -/
def code : Bytes :=
  [0x03, 0x3c, 0x1b, 0xb1]

/-- The records of slot 1: the range of `a` is empty, that of `b` goes from the load to the end. -/
def records : List RawLocal :=
  [⟨0, 0, 2, 4, 1⟩, ⟨2, 4, 3, 4, 1⟩]

/-- The table of local variables. -/
def table : Bytes :=
  [0, 2] ++ [0, 0, 0, 0, 0, 2, 0, 4, 0, 1] ++ [0, 2, 0, 2, 0, 3, 0, 4, 0, 1]

/-- The code attribute of the method. -/
def body : Bytes :=
  codeBody 1 2 code [] ([0, 1] ++ [0, 1, 0, 0, 0, 22] ++ table)

/-- The parts of the code attribute. -/
def parts : CodeParts where
  maxStack := 1
  maxLocals := 2
  code := code.toArray
  handlers := []
  locals := records

/-- The scan of the code. -/
def scan : CodeScan :=
  ⟨#[0, 1, 2, 3], #[]⟩

/-- What is known of the method before its code is read. -/
def blank : Method where
  name := "f"
  descriptor := "()V"
  flags := staticFlag

/-- The method that was read. -/
def method : Method :=
  { blank with
    nodes := #[.label ⟨0⟩, .insn (.simple 0x03), .insn (.var Opcode.istore 1), .label ⟨1⟩,
      .insn (.var Opcode.iload 1), .insn (.simple 0xb1), .label ⟨2⟩]
    locals := [⟨1, "a", "I", ⟨0⟩, ⟨0⟩⟩, ⟨1, "b", "I", ⟨1⟩, ⟨2⟩⟩]
    nextLabel := 3
    origin := some (parts.origin [0, 2, 4]) }

theorem read_body : CodeParts.read pool body = .ok parts := by
  have htext : pool.text 1 = .ok AttributeName.locals := text_of_get rfl
  have hbytes : attributesBytes [⟨1, table⟩] = .ok ([0, 1] ++ [0, 1, 0, 0, 0, 22] ++ table) := rfl
  refine read_codeBody (by decide) (by decide) (List.forall_mem_nil _) hbytes ?_
  exact bind_eq_ok.2 ⟨_, bind_eq_ok.2 ⟨_, htext, rfl⟩, rfl⟩

theorem scan_eq : scanCode parts.code = .ok scan := by
  refine scanFrom_of_insn 1 [] rfl (by decide) (by decide) rfl ?_
  refine scanFrom_of_insn 1 [] rfl (by decide) (by decide) rfl ?_
  refine scanFrom_of_insn 1 [] rfl (by decide) (by decide) rfl ?_
  refine scanFrom_of_insn 1 [] rfl (by decide) (by decide) rfl ?_
  exact scanFrom_of_end (by decide)

theorem decodeMethod_eq : decodeMethod pool blank body = .ok method := by
  have nodup : [0, 2, 4].Nodup := by decide
  have hnodes : ∀ {n : Nat} {i : Insn},
      decodeInsn parts.code pool (labelTable (numberLabels [0, 2, 4])) n = .ok i →
      nodesAt parts pool (labelTable (numberLabels [0, 2, 4])) (lineTable []) n = .ok _ :=
    fun hi => nodesAt_of_decodeInsn nodup hi
  have hlabel : ∀ {n : Nat} {l : Label},
      ([0, 2, 4].findIdx? (· = n)).map Label.mk = some l →
      (labelTable (numberLabels [0, 2, 4])).get n = .ok l :=
    fun hl => get_eq_ok_of_at? ((at?_numberLabels nodup _).trans hl)
  have hlocal : ∀ {raw : RawLocal} {name descriptor : String} {start stop : Label},
      pool.text raw.name = .ok name → pool.text raw.descriptor = .ok descriptor →
      (labelTable (numberLabels [0, 2, 4])).get raw.start = .ok start →
      (labelTable (numberLabels [0, 2, 4])).get raw.stop = .ok stop →
      decodeLocal pool (labelTable (numberLabels [0, 2, 4])) raw =
        .ok ⟨raw.slot, name, descriptor, start, stop⟩ :=
    fun hname hdescriptor hstart hstop => bind_eq_ok.2 ⟨_, during_eq_ok.2 hname,
      bind_eq_ok.2 ⟨_, during_eq_ok.2 hdescriptor, bind_eq_ok.2 ⟨_, hstart,
        bind_eq_ok.2 ⟨_, hstop, rfl⟩⟩⟩⟩
  refine decodeMethod_eq_ok.2 ⟨parts, scan, [0, 2, 4], _, [], _, [], read_body, scan_eq, ?_,
    mapM_eq_ok.2 (.cons (hnodes rfl) (.cons (hnodes rfl) (.cons (hnodes rfl)
      (.cons (hnodes rfl) .nil)))), rfl,
    mapM_eq_ok.2 (.cons (hlocal (text_of_get rfl) (text_of_get rfl) (hlabel rfl) (hlabel rfl))
      (.cons (hlocal (text_of_get rfl) (text_of_get rfl) (hlabel rfl) (hlabel rfl)) .nil)), rfl, ?_⟩
  · exact labelledOffsets_eq_ok.2 ⟨by decide, by decide⟩
  · rw [at?_numberLabels nodup]
    rfl

end reusedSlot

/-- The store begins the range of `b`, although `a` comes first in the table, and the load is in it. -/
theorem locals_of_decode_reusedSlot :
    decodeMethod reusedSlot.pool reusedSlot.blank reusedSlot.body = .ok reusedSlot.method ∧
      (Predicate.store { name := some "b" }).test reusedSlot.method 2 = true ∧
      ¬ (Predicate.store { name := some "a" }).test reusedSlot.method 2 = true ∧
      (Predicate.load { name := some "b" }).test reusedSlot.method 4 = true := by
  have hfirst : reusedSlot.pool.text 2 = .ok "a" := ConstantPool.text_of_get rfl
  have hsecond : reusedSlot.pool.text 3 = .ok "b" := ConstantPool.text_of_get rfl
  have htype : reusedSlot.pool.text 4 = .ok "I" := ConstantPool.text_of_get rfl
  obtain ⟨pc, length, hpc, hlength, hstores⟩ := locals_of_decode reusedSlot.decodeMethod_eq
    reusedSlot.read_body reusedSlot.scan_eq (k := 2) rfl
  obtain rfl : 1 = pc := Option.some.inj hpc
  obtain rfl : 1 = length := Except.ok.inj hlength
  obtain ⟨pc, length, hpc, -, hloads⟩ := locals_of_decode reusedSlot.decodeMethod_eq
    reusedSlot.read_body reusedSlot.scan_eq (k := 4) rfl
  obtain rfl : 2 = pc := Option.some.inj hpc
  refine ⟨reusedSlot.decodeMethod_eq, ?_, fun h => ?_, ?_⟩
  · exact (hstores _).2.2 ⟨Opcode.istore, 1, ⟨2, 4, 3, 4, 1⟩, rfl, by decide, rfl, "b", "I",
      hsecond, htype, rfl, rfl⟩
  · obtain ⟨op, slot, raw, haccess, -, hraw, name, _, hname, -, haccepts, -⟩ := (hstores _).2.1 h
    cases haccess
    obtain rfl : ⟨2, 4, 3, 4, 1⟩ = raw := Option.some.inj hraw
    cases hsecond.symm.trans hname
    cases haccepts
  · exact (hloads _).1.2 ⟨Opcode.iload, 1, ⟨2, 4, 3, 4, 1⟩, rfl, by decide, rfl, "b", "I",
      hsecond, htype, rfl, rfl⟩

end Rewire
