import Mathlib
import Rewire.Proofs.Code.Targets
import Rewire.Proofs.Code.Widening
import Rewire.Proofs.Descriptor.Reading

/-!
# Decoded instructions can be written

The decoder takes bytes that nobody checked, and what it makes of them is written again. This file
shows

* that a decoded instruction is well-formed (`Insn.IsWellFormed`), apart from one behind a prefix
  for large slots that stands before the opcode of something without a slot (`Insn.IsMisread`,
  `isWellFormed_of_decode`);
* that a well-formed instruction is written wherever it is laid out, unless it calls through an
  interface and its arguments cannot be counted in a byte (`Insn.IsOverlongCall`,
  `Layout.IsOf.exists_encode_iff`);
* both for decoded methods (`isWritable_of_decode`).
-/

namespace Rewire

/-! ## 1. Well-formed instructions -/

namespace Insn

/-- Whether the number of an instruction fits the bytes it is written in. -/
def NumberFits : Insn → Prop
  | int op value =>
    if op = Opcode.sipush then -0x8000 ≤ value.toInt ∧ value.toInt ≤ 0x7fff
    else if op = Opcode.bipush then -0x80 ≤ value.toInt ∧ value.toInt ≤ 0x7f
    else 0 ≤ value.toInt ∧ value.toInt ≤ 0xff
  | _ => True

/-- What the assembler and the pool it writes to expect of an instruction. -/
structure IsWellFormed (pool : ConstantPool) (i : Insn) : Prop where
  form : i.HasForm
  number : i.NumberFits
  agrees : i.AgreesWith pool

/-- Whether an instruction was read from a prefix for large slots, at one of the starts, that stands
    before an opcode that is no load, store or `ret`. -/
def IsMisread (code : Array UInt8) (starts : List Nat) (i : Insn) : Prop :=
  ¬ i.VarFits ∧ ∃ offset ∈ starts, ∃ op slot, i = .var op slot ∧
    u8At code offset = .ok Opcode.wide ∧ u8At code (offset + 1) = .ok op ∧
    u16At code (offset + 2) = .ok slot

/-- Whether an instruction calls through an interface with a descriptor that says nothing about the
    arguments, or so many of them that a byte cannot count them and the receiver. -/
def IsOverlongCall : Insn → Prop
  | call site => site.kind = .interface ∧
      ∀ d, Descriptor.parse site.descriptor = .ok d → 0xff ≤ d.argumentWords
  | _ => False

end Insn

/-! ## 2. Decoded instructions -/

theorem eq_wide_of_format {op : UInt8} : Format.of? op = some .wide → op = Opcode.wide :=
  forall_opcode (P := fun op => Format.of? op = some .wide → op = Opcode.wide) (by decide +kernel) op

section Insns

variable {code : Array UInt8} {pool : ConstantPool} {labels : LabelTable} {offset length : Nat}
  {i : Insn}

/-- The table of a decoded switch is as long as its range. Decoding alone reads an empty table from a
    range that ends before it begins, but such a switch has no length. -/
theorem hasForm_of_decode (h : decodeInsn code pool labels offset = .ok i)
    (hlength : insnLength code offset = .ok length) (hvar : i.VarFits) : i.HasForm := by
  have hfits := opcodeFits_of_decode h hvar
  obtain ⟨op, format, -, hformat, hi⟩ := decodedAs_of_decode h
  cases hi with
  | @tableSwitch low high count default targets hlow hhigh hcount _ htargets =>
    have hentries : targets.length = count.toInt.toNat := by
      rw [← (mapM_eq_ok.1 htargets).length_eq, tablePositions, List.length_map, List.length_range]
    obtain ⟨format', hformat', hlength⟩ := insnLength_eq_ok.1 hlength
    cases hformat.symm.trans hformat'
    obtain ⟨size, hsize, -⟩ := bind_eq_ok.1 hlength
    obtain ⟨low', high', n, hlow', hhigh', hn, hnat⟩ := tableSizeAt_eq_ok.1 hsize
    cases hlow.symm.trans hlow'
    cases hhigh.symm.trans hhigh'
    cases hcount.symm.trans hn
    obtain ⟨hrange, -⟩ := tableCount?_eq_some.1 hcount
    show high.toInt - low.toInt + 1 = targets.length
    omega
  | invokeDynamic hcall =>
    obtain ⟨name, descriptor, rfl, -⟩ := computedCall_eq hcall
    trivial
  | _ => exact hfits

theorem numberFits_of_decode (h : decodeInsn code pool labels offset = .ok i) : i.NumberFits := by
  obtain ⟨op, format, hf, -, hi⟩ := decodedAs_of_decode h
  have hfits := Format.fits_of? hf
  cases hi with
  | @pushByte n =>
    obtain rfl : op = Opcode.bipush := hfits
    show -0x80 ≤ n.toInt32.toInt ∧ n.toInt32.toInt ≤ 0x7f
    rw [Int8.toInt_toInt32]
    exact ⟨n.le_toInt, n.toInt_le⟩
  | @pushShort n =>
    obtain rfl : op = Opcode.sipush := hfits
    show -0x8000 ≤ n.toInt32.toInt ∧ n.toInt32.toInt ≤ 0x7fff
    rw [Int16.toInt_toInt32]
    exact ⟨n.le_toInt, n.toInt_le⟩
  | @arrayType n =>
    obtain rfl : op = Opcode.newArray := hfits
    show 0 ≤ n.toUInt32.toInt32.toInt ∧ n.toUInt32.toInt32.toInt ≤ 0xff
    rw [toInt_toUInt32]
    have hlt := n.toNat_lt
    omega
  | invokeDynamic hcall =>
    obtain ⟨name, descriptor, rfl, -⟩ := computedCall_eq hcall
    trivial
  | _ => trivial

/-- **A decoded instruction is well-formed**, or has the prefix for large slots and no slot. -/
theorem isWellFormed_of_decode (h : decodeInsn code pool labels offset = .ok i)
    (hlength : insnLength code offset = .ok length) {starts : List Nat} (hstart : offset ∈ starts) :
    i.IsWellFormed pool ∨ i.IsMisread code starts := by
  by_cases hvar : i.VarFits
  · exact .inl ⟨hasForm_of_decode h hlength hvar, numberFits_of_decode h, agreesWith_of_decode h⟩
  right
  obtain ⟨op, format, hf, hformat, hi⟩ := decodedAs_of_decode h
  have hfits := Format.fits_of? hf
  obtain ⟨op', hop, hof⟩ := formatAt_eq_ok.1 hformat
  cases hi with
  | var => exact absurd hfits hvar
  | shortVar => exact absurd (hfits.elim .inl fun hstore => .inr (.inl hstore)) hvar
  | wideVar hinner hslot =>
    refine ⟨hvar, offset, hstart, _, _, rfl, ?_, hinner, hslot⟩
    rw [hop, eq_wide_of_format hof]
  | invokeDynamic hcall =>
    obtain ⟨name, descriptor, rfl, -⟩ := computedCall_eq hcall
    exact absurd trivial hvar
  | _ => exact absurd trivial hvar

end Insns

/-! ## 3. Writing -/

section Writing

variable {offset : Nat} {operand : UInt16} {wide : Bool} {target : Label → Nat}

theorem exists_encodeInt {op : UInt8} {value : Int32} (fits : (Insn.int op value).NumberFits) :
    ∃ bytes, encodeInt op value = .ok bytes := by
  rw [Insn.NumberFits] at fits
  unfold encodeInt
  split
  · rename_i hop
    rw [if_pos hop] at fits
    exact ⟨_, bind_eq_ok.2 ⟨_, bind_eq_ok.2 ⟨_, fitRange_eq_ok fits.1 fits.2, rfl⟩, rfl⟩⟩
  rename_i hop
  rw [if_neg hop] at fits
  split
  · rename_i hop
    rw [if_pos hop] at fits
    exact ⟨_, bind_eq_ok.2 ⟨_, bind_eq_ok.2 ⟨_, fitRange_eq_ok fits.1 fits.2, rfl⟩, rfl⟩⟩
  · rename_i hop
    rw [if_neg hop] at fits
    exact ⟨_, bind_eq_ok.2 ⟨_, bind_eq_ok.2 ⟨_, fitRange_eq_ok fits.1 fits.2, rfl⟩, rfl⟩⟩

theorem exists_encodeVar {op : UInt8} {slot : UInt16}
    (form : Opcode.IsLoad op ∨ Opcode.IsStore op ∨ op = Opcode.ret) :
    ∃ bytes, encodeVar op slot = .ok bytes := by
  unfold encodeVar
  split
  · exact ⟨_, rfl⟩
  split
  · rename_i hshort
    obtain ⟨b, hb⟩ : ∃ b, shortForm op slot.toUInt8 = .ok b := by
      unfold shortForm
      split
      · exact ⟨_, rfl⟩
      rename_i hload
      rcases form with hform | hstore | rfl
      · exact absurd hform hload
      · rw [if_pos hstore]
        exact ⟨_, rfl⟩
      · -- `ret` has no opcode with a slot in it
        simp [hasShortForm] at hshort
    exact ⟨[b], bind_eq_ok.2 ⟨b, hb, rfl⟩⟩
  · exact ⟨_, rfl⟩

/-- A call is written unless its arguments cannot be counted. -/
theorem exists_encode_call_iff {site : CallSite} :
    (∃ bytes, (Insn.call site).encode offset operand wide target = .ok bytes) ↔
      ¬ (Insn.call site).IsOverlongCall := by
  rw [Insn.encode, Insn.IsOverlongCall]
  split
  · rename_i hkind
    constructor
    · rintro ⟨bytes, h⟩ ⟨-, hlong⟩
      obtain ⟨d, hd, h⟩ := bind_eq_ok.1 h
      obtain ⟨width, hwidth, h⟩ := bind_eq_ok.1 h
      obtain ⟨words, hwords, h⟩ := bind_eq_ok.1 h
      obtain ⟨count, hcount, -⟩ := bind_eq_ok.1 h
      obtain ⟨k, hk, -⟩ := bind_eq_ok.1 hcount
      obtain ⟨-, -, hle⟩ := bounds_of_fitRange hk
      have hwidth := Descriptor.argumentWidth_eq_ok.1 hwidth
      have hwords : words.toNat = width.toNat + 1 := addWord16_eq_ok.1 hwords
      have hge := hlong d hd
      omega
    · intro hshort
      obtain ⟨d, hd⟩ := not_forall.1 fun hlong => hshort ⟨hkind, hlong⟩
      obtain ⟨hd, hlt⟩ := Classical.not_imp.1 hd
      obtain ⟨width, hwidth, hnat⟩ := d.exists_argumentWidth (by omega)
      have hsum : (UInt16.ofNat (width.toNat + 1)).toNat = width.toNat + 1 :=
        toNat_ofNat16 (by omega)
      exact ⟨_, bind_eq_ok.2 ⟨d, hd, bind_eq_ok.2 ⟨width, hwidth, bind_eq_ok.2
        ⟨_, addWord16_eq_ok.2 hsum, bind_eq_ok.2
          ⟨_, bind_eq_ok.2 ⟨_, fitRange_eq_ok (by omega) (by omega), rfl⟩, rfl⟩⟩⟩⟩⟩
  · rename_i hkind
    exact ⟨fun _ h => hkind h.1, fun _ => ⟨_, rfl⟩⟩

end Writing

/-- **A well-formed instruction is written** wherever it is laid out, unless it is a call whose
    arguments cannot be counted. -/
theorem Layout.IsOf.exists_encode_iff {m : Method} {l : Layout} (h : l.IsOf m)
    (jumps : ∀ op label, .jump op label ∈ m.insns → Opcode.IsShortJump op) {placed : Piece × Nat}
    {i : Insn} (hplaced : placed ∈ l.placed) (hnode : placed.1.node = .insn i) (form : i.HasForm)
    (number : i.NumberFits) :
    (∃ bytes, Piece.encode l.offsetOf placed = .ok bytes) ↔ ¬ i.IsOverlongCall := by
  obtain ⟨p, offset⟩ := placed
  have hencode : Piece.encode l.offsetOf (p, offset) =
      i.encode offset p.operand p.wide l.offsetOf := by
    rw [Piece.encode, hnode]
  cases i with
  | call site =>
    rw [hencode]
    exact exists_encode_call_iff
  | jump op label => exact iff_of_true (h.exists_encode_jump jumps hplaced hnode) id
  | int op value =>
    rw [hencode]
    exact iff_of_true (exists_encodeInt number) id
  | var op slot =>
    rw [hencode]
    exact iff_of_true (exists_encodeVar form) id
  | tableSwitch low high default targets =>
    have hlength : high.toInt - low.toInt + 1 = targets.length := form
    rw [hencode, Insn.encode, if_neg (not_not_intro hlength)]
    exact iff_of_true ⟨_, rfl⟩ id
  | _ =>
    rw [hencode]
    exact iff_of_true ⟨_, rfl⟩ id

/-! ## 4. Decoded methods -/

/-- What a method has whose code starts instructions at the given offsets. -/
structure Method.IsWritable (pool : ConstantPool) (code : Array UInt8) (starts : List Nat)
    (m : Method) : Prop where
  /-- Its instructions are well-formed, apart from those with a prefix they cannot have. -/
  insns : ∀ i ∈ m.insns, i.IsWellFormed pool ∨ i.IsMisread code starts
  /-- Its jumps lead to instructions. -/
  land : m.JumpsLand
  /-- In every layout, all others are written but for calls whose arguments cannot be counted. -/
  encode : ∀ p l q, layOut m p = (.ok l, q) → ∀ placed ∈ l.placed, ∀ i,
    placed.1.node = .insn i → ¬ i.IsMisread code starts →
      ((∃ bytes, Piece.encode l.offsetOf placed = .ok bytes) ↔ ¬ i.IsOverlongCall)

/-- **Decoded methods can be written.** -/
theorem isWritable_of_decode {pool : ConstantPool} {blank m : Method} {body : Bytes}
    (h : decodeMethod pool blank body = .ok m) :
    ∃ parts scan, CodeParts.read pool body = .ok parts ∧ scanCode parts.code = .ok scan ∧
      m.IsWritable pool parts.code scan.starts.toList := by
  obtain ⟨parts, scan, offsets, nodes, handlers, locals, localTypes, hread, hscan, -, hnodes, -, -,
    -, hm⟩ := decodeMethod_eq_ok.1 h
  have hinsns : ∀ i ∈ m.insns, i.IsWellFormed pool ∨ i.IsMisread parts.code scan.starts.toList := by
    intro i hi
    rw [hm] at hi
    obtain ⟨start, hstart, hdecode⟩ := exists_start hnodes hi
    obtain ⟨length, -, hlength, -⟩ := inside_of_scanCode hscan hstart
    exact isWellFormed_of_decode hdecode hlength hstart
  refine ⟨parts, scan, hread, hscan, hinsns, jumpsLand_of_decode h, ?_⟩
  intro p l q hlayout placed hplaced i hnode hread
  have hof := isOf_of_layOut hlayout
  have hwell := (hinsns i (hof.mem_insns (List.of_mem_zip hplaced).1 hnode)).resolve_right hread
  have hjumps : ∀ op label, .jump op label ∈ m.insns → Opcode.IsShortJump op := by
    intro op label hi
    rcases hinsns _ hi with hjump | hjump
    · exact hjump.form
    · exact absurd trivial hjump.1
  exact hof.exists_encode_iff hjumps hplaced hnode hwell.form hwell.number

/-! ### A prefix before an instruction without a slot -/

namespace prefixedNop

/-- The code attribute of a method that pushes a number, drops it, and has a prefix for large slots
    before a `nop`, with the slot 2. -/
def body : Bytes :=
  codeBody 1 0 [Opcode.bipush, 5, Opcode.pop, Opcode.wide, Opcode.nop, 0, 2, 0xb1] [] [0, 0]

/-- What is known of the method before its code is read. -/
def blank : Method where
  name := "f"
  descriptor := "()V"
  flags := staticFlag

/-- The method that is read. -/
def method : Method :=
  { blank with
    nodes := #[.insn (.int Opcode.bipush 5), .insn (.simple Opcode.pop),
      .insn (.var Opcode.nop 2), .insn (.simple 0xb1)]
    origin := some {
      maxStack := 1, maxLocals := 0, codeLength := 8, labelOffsets := [], attributes := [] } }

/-- The parts of the code attribute. -/
def parts : CodeParts where
  maxStack := 1
  maxLocals := 0
  code := #[Opcode.bipush, 5, Opcode.pop, Opcode.wide, Opcode.nop, 0, 2, 0xb1]
  handlers := []

theorem read_body : CodeParts.read .empty body = .ok parts := by
  have hbytes : attributesBytes [] = .ok [0, 0] := rfl
  exact read_codeBody (by decide) (by decide) (List.forall_mem_nil _) hbytes rfl

/-- The scan of the code. -/
def scan : CodeScan :=
  ⟨#[0, 2, 3, 7], #[]⟩

theorem scan_eq : scanCode parts.code = .ok scan := by
  refine scanFrom_of_insn 2 [] rfl (by decide) (by decide) rfl ?_
  refine scanFrom_of_insn 1 [] rfl (by decide) (by decide) rfl ?_
  refine scanFrom_of_insn 4 [] rfl (by decide) (by decide) rfl ?_
  refine scanFrom_of_insn 1 [] rfl (by decide) (by decide) rfl ?_
  exact scanFrom_of_end (by decide)

theorem decodeMethod_eq : decodeMethod .empty blank body = .ok method := by
  have hnodes : ∀ n i, decodeInsn parts.code .empty (labelTable (numberLabels [])) n = .ok i →
      nodesAt parts .empty (labelTable (numberLabels [])) (lineTable parts.lines) n =
        .ok [.insn i] := fun n i h => nodesAt_of_decodeInsn List.nodup_nil h
  refine decodeMethod_eq_ok.2 ⟨parts, scan, [], _, [], [], [], read_body, scan_eq, ?_,
    mapM_eq_ok.2 (.cons (hnodes 0 (.int Opcode.bipush 5) rfl) (.cons
      (hnodes 2 (.simple Opcode.pop) rfl) (.cons (hnodes 3 (.var Opcode.nop 2) rfl) (.cons
        (hnodes 7 (.simple 0xb1) rfl) .nil)))), rfl, rfl, rfl, ?_⟩
  · exact labelledOffsets_eq_ok.2 ⟨by decide, by decide⟩
  · rw [at?_numberLabels List.nodup_nil]
    rfl

/-- The elements of the method. -/
def pieces : List Piece :=
  [{ node := .insn (.int Opcode.bipush 5) }, { node := .insn (.simple Opcode.pop) },
    { node := .insn (.var Opcode.nop 2) }, { node := .insn (.simple 0xb1) }]

/-- Their layout. -/
def layout : Layout :=
  ⟨pieces, ∅, pieceOffsets pieces⟩

theorem layOut_eq : layOut method .empty = (.ok layout, .empty) := by
  have hpositions : distinctPositions method.nodes = .ok ∅ := by
    rw [distinctPositions_eq]
    rfl
  exact layOut_of_no_jumps (by simp [method, Node.isMarker]) hpositions rfl rfl (by simp [pieces])
    (by decide)

end prefixedNop

/-- The number pushed is written, the prefixed `nop` is not. -/
theorem isWritable_of_decode_prefixedNop :
    decodeMethod .empty prefixedNop.blank prefixedNop.body = .ok prefixedNop.method ∧
      layOut prefixedNop.method .empty = (.ok prefixedNop.layout, .empty) ∧
      (∃ bytes, Piece.encode prefixedNop.layout.offsetOf
        ({ node := .insn (.int Opcode.bipush 5) }, 0) = .ok bytes) ∧
      Piece.encode prefixedNop.layout.offsetOf ({ node := .insn (.var Opcode.nop 2) }, 3) =
        fail (.notLocalAccess Opcode.nop) := by
  obtain ⟨parts, scan, -, -, writable⟩ := isWritable_of_decode prefixedNop.decodeMethod_eq
  have hpush := writable.encode _ _ _ prefixedNop.layOut_eq
    ({ node := .insn (.int Opcode.bipush 5) }, 0) List.mem_cons_self _ rfl fun h => h.1 trivial
  exact ⟨prefixedNop.decodeMethod_eq, prefixedNop.layOut_eq, hpush.2 id, rfl⟩

end Rewire
