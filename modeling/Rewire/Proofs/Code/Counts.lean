import Mathlib
import Rewire.Proofs.Code.Assembling
import Rewire.Proofs.Code.Decoded

/-!
# Counts of tables

Tables are written with a count of 16 bits. Code is read with at most that many exception regions,
but its source lines and its local variables may come from several tables. This file shows

* what is read back of a table whose count is cut off (`onBytes_tableBytes`), which is all of it
  exactly if its entries can be counted (`CountedTable.read_eq_iff`);
* which source lines are written: those that an instruction follows (`map_snd_lines`);
* what the tables of code that was read and is written again hold (`holdsTables_of_assemble`). Every
  entry is written, and all of them are read back unless there are more than can be counted.
-/

namespace Rewire

open ConstantPool Reader

/-! ## 1. Tables with a count -/

section Tables

variable {α : Type} {entry : Reader α} {spell : α → Bytes} {entries : List α}

/-- The count of a table is cut to 16 bits, and so many entries are read. -/
theorem reads_counted_mod (h : ∀ e ∈ entries, Reads entry (spell e) e) :
    Reads (counted entry)
      (offset16 entries.length ++ (entries.take (entries.length % 0x10000)).flatMap spell)
      (entries.take (entries.length % 0x10000)) := by
  have hcount : (UInt16.ofNat entries.length).toNat =
      (entries.take (entries.length % 0x10000)).length := by
    rw [UInt16.toNat_ofNat', List.length_take]
    omega
  have hfirst : ∀ e ∈ entries.take (entries.length % 0x10000), Reads entry (spell e) e :=
    fun e he => h e (List.mem_of_mem_take he)
  have hread := reads_times id hfirst
  rw [← hcount, List.map_id] at hread
  exact reads_bind (reads_u16 _) hread

/-- **What is read back of a table**: as many entries as the count says. -/
theorem onBytes_tableBytes (h : ∀ e ∈ entries, Reads entry (spell e) e)
    (small : (tableBytes (entries.map spell)).length < positionLimit) :
    (counted entry).onBytes (tableBytes (entries.map spell)) =
      .ok (entries.take (entries.length % 0x10000)) := by
  have hsplit : tableBytes (entries.map spell) =
      offset16 entries.length ++ (entries.take (entries.length % 0x10000)).flatMap spell ++
        (entries.drop (entries.length % 0x10000)).flatMap spell := by
    rw [tableBytes, List.length_map, List.append_assoc, ← List.flatMap_append,
      List.take_append_drop, List.flatMap_def]
  rw [hsplit] at small ⊢
  exact (reads_counted_mod h).onBytes small

/-- How entries stand in a table: behind their count, which is cut to 16 bits. If they can be
    counted, the table is read to its end, and nothing is lost. -/
structure CountedTable (entry : Reader α) (spell : α → Bytes) (bytes : Bytes) (entries : List α) :
    Prop where
  bytes_eq : bytes = offset16 entries.length ++ entries.flatMap spell
  read : (counted entry).onBytes bytes = .ok (entries.take (entries.length % 0x10000))
  whole : entries.length ≤ 0xffff → Reads (counted entry) bytes entries

theorem countedTable_tableBytes (h : ∀ e ∈ entries, Reads entry (spell e) e)
    (small : (tableBytes (entries.map spell)).length < positionLimit) :
    CountedTable entry spell (tableBytes (entries.map spell)) entries where
  bytes_eq := by rw [tableBytes, List.length_map, List.flatMap_def]
  read := onBytes_tableBytes h small
  whole few := by
    have hread := reads_counted id few h
    rwa [List.map_id] at hread

/-- All entries are read back exactly if they can be counted. -/
theorem CountedTable.read_eq_iff {bytes : Bytes} (h : CountedTable entry spell bytes entries) :
    (counted entry).onBytes bytes = .ok entries ↔ entries.length ≤ 0xffff := by
  rw [h.read]
  constructor
  · intro heq
    have hlength := congrArg List.length (Except.ok.inj heq)
    rw [List.length_take] at hlength
    omega
  · intro few
    rw [Nat.mod_eq_of_lt (Nat.lt_succ_of_le few), List.take_length]

/-- A table as an attribute: there is none if the table has no entries. -/
inductive HoldsTable (pool : ConstantPool) (name : String) (entry : Reader α) (spell : α → Bytes) :
    List α → List RawAttribute → Prop where
  | none : HoldsTable pool name entry spell [] []
  | some {entries : List α} {raw : RawAttribute} (nonempty : entries ≠ [])
      (named : pool.text raw.name = .ok name)
      (table : CountedTable entry spell raw.body entries) :
      HoldsTable pool name entry spell entries [raw]

theorem holdsTable_of_named {pool : ConstantPool} {name : String} {raws : List RawAttribute}
    (hnamed : List.Forall₂ (RawAttribute.IsNamed pool) raws (namedTable name (entries.map spell)))
    (h : ∀ e ∈ entries, Reads entry (spell e) e)
    (small : ∀ raw ∈ raws, raw.body.length < positionLimit) :
    HoldsTable pool name entry spell entries raws := by
  cases entries with
  | nil =>
    cases hnamed
    exact .none
  | cons first rest =>
    rw [namedTable, if_neg (by simp)] at hnamed
    cases hnamed with
    | @cons raw _ _ _ ha hrest =>
      cases hrest
      have hbody : raw.body = tableBytes ((first :: rest).map spell) := ha.body_eq
      refine .some (List.cons_ne_nil _ _) ha.name_eq ?_
      rw [hbody]
      exact countedTable_tableBytes h (hbody ▸ small raw (List.mem_singleton_self _))

end Tables

/-! ## 2. Source lines -/

/-- The source lines of nodes that an instruction follows. -/
def linesBeforeInsns : List Node → List UInt16
  | [] => []
  | .line number :: rest =>
    if rest.all Node.isMarker then [] else number :: linesBeforeInsns rest
  | _ :: rest => linesBeforeInsns rest

theorem linesBeforeInsns_of_markers {nodes : List Node}
    (h : ∀ node ∈ nodes, node.isMarker = true) : linesBeforeInsns nodes = [] := by
  induction nodes with
  | nil => rfl
  | cons node rest ih =>
    obtain ⟨hnode, hrest⟩ := List.forall_mem_cons.1 h
    cases node with
    | insn i => cases hnode
    | label l => exact ih hrest
    | line number => rw [linesBeforeInsns, if_pos (List.all_eq_true.2 hrest)]

/-- The entry of an element in the table of source lines of code of a length. -/
def lineOf? (stop : Nat) (placed : Piece × Nat) : Option (Nat × UInt16) :=
  match placed.1.node with
  | .line number => if placed.2 < stop then some (placed.2, number) else none
  | _ => none

theorem map_snd_filterMap_lineOf? (offset : Nat) (pieces : List Piece) :
    ((placedFrom offset pieces).filterMap (lineOf? (endFrom offset pieces))).map Prod.snd =
      linesBeforeInsns (pieces.map Piece.node) := by
  induction pieces generalizing offset with
  | nil => rfl
  | cons p rest ih =>
    rw [placedFrom, List.filterMap_cons, endFrom, List.map_cons]
    cases hnode : p.node with
    | insn i =>
      rw [lineOf?, hnode]
      exact ih _
    | label l =>
      rw [lineOf?, hnode]
      exact ih _
    | line number =>
      have hlength : p.length offset = 0 := Piece.length_of_isMarker (by rw [hnode]; rfl) offset
      rw [lineOf?, hnode, hlength, Nat.add_zero, linesBeforeInsns]
      simp only
      by_cases hmarkers : ∀ q ∈ rest, q.node.isMarker = true
      · have hall : ∀ node ∈ rest.map Piece.node, node.isMarker = true :=
          List.forall_mem_map.2 hmarkers
        rw [if_pos (List.all_eq_true.2 hall), endFrom_eq_iff.2 hmarkers,
          if_neg (Nat.lt_irrefl _), ← linesBeforeInsns_of_markers hall, ← ih offset,
          endFrom_eq_iff.2 hmarkers]
      · have hlt : offset < endFrom offset rest :=
          Nat.lt_of_le_of_ne (le_endFrom _ _) fun heq => hmarkers (endFrom_eq_iff.1 heq.symm)
        have hsome : ¬ (rest.map Piece.node).all Node.isMarker = true := fun hall =>
          hmarkers (List.forall_mem_map.1 (List.all_eq_true.1 hall))
        rw [if_pos hlt, if_neg hsome, ← ih offset]
        rfl

theorem LaidOut.map_snd_lines {m : Method} {pool : ConstantPool} {l : Layout}
    (h : LaidOut m pool l) : l.lines.map Prod.snd = linesBeforeInsns m.nodes.toList := by
  rw [← h.map_node, ← map_snd_filterMap_lineOf? 0, ← h.consistent.placed_eq,
    ← h.consistent.codeLength_eq]
  rfl

/-! ## 3. Exception regions -/

theorem gives_counted {α : Type} (entry : Reader α) :
    Gives (counted entry) fun entries => entries.length ≤ 0xffff :=
  gives_bind gives_any fun count _ c entries c' h => by
    have hlength := gives_times count.toNat entry c entries c' h
    have := count.toNat_lt
    omega

/-- **Code is read with no more exception regions than can be counted.** -/
theorem length_handlers_of_decode {pool : ConstantPool} {blank m : Method} {body : Bytes}
    (h : decodeMethod pool blank body = .ok m) : m.handlers.length ≤ 0xffff := by
  obtain ⟨parts, _, _, _, handlers, _, _, hparts, -, -, -, hhandlers, -, -, rfl⟩ :=
    decodeMethod_eq_ok.1 h
  show handlers.length ≤ 0xffff
  rw [← (mapM_eq_ok.1 hhandlers).length_eq]
  have hkeeps : ∀ parts parts' name body, parts.handlers.length ≤ 0xffff →
      CodeParts.take parts name body = .ok parts' → parts'.handlers.length ≤ 0xffff := by
    intro parts parts' name body few htake
    obtain ⟨_, _, _, _, _, rfl⟩ := CodeParts.exists_of_take htake
    exact few
  have hgives : Gives (CodeParts.reader pool) fun parts => parts.handlers.length ≤ 0xffff :=
    gives_bind gives_any fun _ _ => gives_bind gives_any fun _ _ =>
      gives_bind gives_any fun _ _ => gives_bind gives_any fun _ _ =>
      gives_bind (gives_counted rawHandler) fun handlers few => gives_bind gives_any fun count _ =>
      gives_repeated (CodeParts.gives_readAttribute hkeeps) _ few
  exact hgives.onBytes hparts

/-! ## 4. Code that is written again -/

/-- Whether the tables of a body hold what a method that was laid out has: its exception regions
    that are not empty, its source lines that an instruction follows, and its local variable
    records that do not end before they start. -/
def Assembled.HoldsTables (m : Method) (l : Layout) (pool : ConstantPool) (a : Assembled) : Prop :=
  ∃ maxStack maxLocals code handlers lines locals localTypes others attributes localEntries
      typeEntries,
    a.body = codeBody maxStack maxLocals code handlers attributes ∧
    attributesBytes (lines ++ locals ++ localTypes ++ others) = .ok attributes ∧
    CountedTable rawHandler RawHandler.bytes (tableBytes (handlers.map RawHandler.bytes)) handlers ∧
    handlers.length ≤ 0xffff ∧
    List.Forall₂ (RawHandler.Denotes pool) handlers (l.handlers m.handlers) ∧
    HoldsTable pool AttributeName.lineNumbers lineEntry encodeLine l.lines lines ∧
    l.lines.map Prod.snd = linesBeforeInsns m.nodes.toList ∧
    HoldsTable pool AttributeName.locals rawLocal RawLocal.bytes localEntries locals ∧
    List.Forall₂ (RawLocal.Denotes pool) localEntries (l.locals m.locals) ∧
    HoldsTable pool AttributeName.localTypes rawLocal RawLocal.bytes typeEntries localTypes ∧
    List.Forall₂ (RawLocal.Denotes pool) typeEntries (l.locals m.localTypes) ∧
    ∀ raw ∈ others, ∃ name, pool.text raw.name = .ok name ∧ name ≠ AttributeName.lineNumbers ∧
      name ≠ AttributeName.locals ∧ name ≠ AttributeName.localTypes

/-- The tables of a method with no more exception regions than can be counted. -/
theorem holdsTables_of_few {p p' : ConstantPool} {m : Method} {log log' : Log} {a : Assembled}
    (hfew : m.handlers.length ≤ 0xffff) (hread : m.OriginIsRead) (counted : m.EntriesFit)
    (wf : p.WellFormed)
    (h : assemble m p log = ((.ok a, p'), log')) :
    ∃ l q, layOut m p = (.ok l, q) ∧ a.HoldsTables m l p' := by
  obtain ⟨l, q, hl, -, -, laid, maxStack, maxLocals, code, handlers, lines, locals, localTypes,
    others, bytes, hcode, denote, named, ⟨localEntries, denoteLocals, namedLocals⟩,
    ⟨typeEntries, denoteTypes, namedTypes⟩, hothers, hbytes, hbody⟩ := isOf_of_assemble wf h
  rw [l.codeBody_eq hcode laid.consistent (laid.entriesFit counted)] at hbody
  obtain ⟨-, attributesFit, -⟩ := attributesBytes_eq_ok hbytes
  have hsmall : ∀ raw ∈ lines ++ locals ++ localTypes ++ others,
      raw.body.length < positionLimit := by
    intro raw hraw
    have hfits : raw.body.length ≤ 0xffffffff := attributesFit raw hraw
    rw [positionLimit]
    omega
  obtain ⟨fewHandlers, handlersFit⟩ := laid.handlers_fit denote
  have few := fewHandlers.trans hfew
  refine ⟨l, q, hl, maxStack, maxLocals, code, handlers, lines, locals, localTypes, others, bytes,
    localEntries, typeEntries, hbody, hbytes, countedTable_tableBytes (fun raw hraw =>
      reads_rawHandler (handlersFit raw hraw)) ?_, few, denote, ?_, laid.map_snd_lines, ?_,
    denoteLocals, ?_, denoteTypes, fun raw hraw => ?_⟩
  · rw [length_tableBytes RawHandler.bytes 8 handlers fun _ => rfl, positionLimit]
    omega
  · exact holdsTable_of_named named (fun line hline => reads_lineEntry (laid.lines_fit line hline))
      fun raw hraw => hsmall raw (by simp [hraw])
  · exact holdsTable_of_named namedLocals (fun raw hraw =>
      reads_rawLocal ((laid.locals_fit denoteLocals).2 raw hraw)) fun raw hraw =>
        hsmall raw (by simp [hraw])
  · exact holdsTable_of_named namedTypes (fun raw hraw =>
      reads_rawLocal ((laid.locals_fit denoteTypes).2 raw hraw)) fun raw hraw =>
        hsmall raw (by simp [hraw])
  · obtain ⟨carried, hcarried, hnamed⟩ := exists_left_of_forall₂ hothers.flip hraw
    obtain ⟨hlines, hlocals, htypes, -⟩ := laid.carried_kept hread carried hcarried
    exact ⟨carried.1, hnamed.name_eq, hlines, hlocals, htypes⟩

/-- **No entry is lost where the entries can be counted.** The tables of code that was read and is
    written again hold all that the method has, each behind its count. -/
theorem holdsTables_of_assemble {pool p p' : ConstantPool} {blank m : Method} {body : Bytes}
    {log log' : Log} {a : Assembled} (hm : decodeMethod pool blank body = .ok m)
    (wf : p.WellFormed) (h : assemble m p log = ((.ok a, p'), log')) :
    ∃ l q, layOut m p = (.ok l, q) ∧ a.HoldsTables m l p' :=
  holdsTables_of_few (length_handlers_of_decode hm)
    (fun _ ho => ⟨pool, blank, body, m, hm, ho⟩) (Method.entriesFit_of_decode hm) wf h

/-! ### Source lines in two tables -/

namespace splitLines

/-- A pool with the name of the table of source lines. -/
def pool : ConstantPool :=
  .push .empty (.utf8 (Modified.encodeText AttributeName.lineNumbers))

/-- The code attribute of a method that returns at once, with a source line in each of two
    tables. -/
def body : Bytes :=
  codeBody 0 0 [0xb1] [] ([0, 2] ++ [0, 1, 0, 0, 0, 6, 0, 1, 0, 0, 0, 7] ++
    [0, 1, 0, 0, 0, 6, 0, 1, 0, 0, 0, 8])

/-- The code that was read. -/
def origin : CodeOrigin where
  maxStack := 0
  maxLocals := 0
  codeLength := 1
  labelOffsets := []
  attributes := []

/-- What is known of the method before its code is read. -/
def blank : Method where
  name := "f"
  descriptor := "()V"
  flags := staticFlag

/-- The method that was read. -/
def method : Method :=
  { blank with
    nodes := #[.line 7, .line 8, .insn (.simple 0xb1)]
    origin := some origin }

theorem holdsText : pool.HoldsText AttributeName.lineNumbers 1 :=
  ⟨by decide, rfl, by decide +kernel⟩

theorem wellFormed_pool : pool.WellFormed :=
  WellFormed.empty.push (by decide) (Constant.textFits_utf8.2 holdsText.1)

/-- The parts of the code attribute. -/
def parts : CodeParts where
  maxStack := 0
  maxLocals := 0
  code := #[0xb1]
  handlers := []
  lines := [(0, 7), (0, 8)]

theorem read_body : CodeParts.read pool body = .ok parts := by
  have hbytes : attributesBytes [⟨1, [0, 1, 0, 0, 0, 7]⟩, ⟨1, [0, 1, 0, 0, 0, 8]⟩] =
      .ok ([0, 2] ++ [0, 1, 0, 0, 0, 6, 0, 1, 0, 0, 0, 7] ++
        [0, 1, 0, 0, 0, 6, 0, 1, 0, 0, 0, 8]) := rfl
  refine read_codeBody (by decide) (by decide) (List.forall_mem_nil _) hbytes ?_
  exact bind_eq_ok.2 ⟨_, bind_eq_ok.2 ⟨_, holdsText.text, rfl⟩,
    bind_eq_ok.2 ⟨_, bind_eq_ok.2 ⟨_, holdsText.text, rfl⟩, rfl⟩⟩

/-- The scan of the code. -/
def scan : CodeScan :=
  ⟨#[0], #[]⟩

theorem scan_eq : scanCode parts.code = .ok scan := by
  refine scanFrom_of_insn 1 [] rfl (by decide) (by decide) rfl ?_
  exact scanFrom_of_end (by decide)

theorem decodeMethod_eq : decodeMethod pool blank body = .ok method := by
  have hnodes : nodesAt parts pool (labelTable (numberLabels [])) (lineTable parts.lines) 0 =
      .ok [.line 7, .line 8, .insn (.simple 0xb1)] := nodesAt_of_decodeInsn List.nodup_nil rfl
  refine decodeMethod_eq_ok.2 ⟨parts, scan, [], _, [], [], [], read_body, scan_eq, ?_,
    mapM_eq_ok.2 (.cons hnodes .nil), rfl, rfl, rfl, ?_⟩
  · exact labelledOffsets_eq_ok.2 ⟨by decide, by decide⟩
  · rw [at?_numberLabels List.nodup_nil]
    rfl

/-- The elements of the method. -/
def pieces : List Piece :=
  [{ node := .line 7 }, { node := .line 8 }, { node := .insn (.simple 0xb1) }]

/-- Their layout. -/
def layout : Layout :=
  ⟨pieces, ∅, pieceOffsets pieces⟩

theorem layOut_eq : layOut method pool = (.ok layout, pool) := by
  have hpositions : distinctPositions method.nodes = .ok ∅ := by
    rw [distinctPositions_eq]
    rfl
  exact layOut_of_no_jumps (by simp [method, Node.isMarker]) hpositions rfl rfl (by simp [pieces])
    (by decide)

theorem encode_eq : layout.encode = .ok [0xb1] :=
  bind_eq_ok.2 ⟨_, mapM_eq_ok.2 (.cons rfl (.cons rfl (.cons rfl .nil))), rfl⟩

theorem greatestDepth_eq : greatestDepth method = .ok 0 := by
  refine bind_eq_ok.2 ⟨[], rfl, bind_eq_ok.2 ⟨⟨#[some 0, some 0, some 0], 0⟩, ?_, rfl⟩⟩
  show walk method.nodes ∅ ⟨#[none, none, none], 0⟩ [⟨0, 0⟩] = _
  rw [walk]
  show walk method.nodes ∅ ⟨#[some 0, none, none], 0⟩ [⟨1, 0⟩] = _
  rw [walk]
  show walk method.nodes ∅ ⟨#[some 0, some 0, none], 0⟩ [⟨2, 0⟩] = _
  rw [walk]
  show walk method.nodes ∅ ⟨#[some 0, some 0, some 0], 0⟩ [] = _
  rw [walk]

/-- The code attribute that is written: both source lines are in one table. -/
def assembled : Assembled where
  body := codeBody 0 0 [0xb1] []
    ([0, 1] ++ [0, 1, 0, 0, 0, 10, 0, 2, 0, 0, 0, 7, 0, 0, 0, 8])
  dropped := []

theorem assemble_eq : assemble method pool #[] = ((.ok assembled, pool), #[]) := by
  have hlines : tableAttribute AttributeName.lineNumbers (layout.lines.map encodeLine) pool =
      (.ok [⟨1, [0, 2, 0, 0, 0, 7, 0, 0, 0, 8]⟩], pool) :=
    Step.bind_eq_ok.2 ⟨_, pool, Step.bind_eq_ok.2 ⟨1, pool,
      intern_of_isFirstSlot wellFormed_pool holdsText.2, rfl⟩, rfl⟩
  have hdepth : maxStack method = .ok 0 := bind_eq_ok.2 ⟨0, greatestDepth_eq, rfl⟩
  have hlocals : requiredLocals method = .ok 0 := bind_eq_ok.2 ⟨_, Descriptor.parse_nothing, rfl⟩
  exact assemble_eq_ok.2 ⟨layout, pool, [0xb1], [], pool, #[], _, pool, [], pool, [], pool,
    { kept := [⟨1, [0, 2, 0, 0, 0, 7, 0, 0, 0, 8]⟩] }, 0, 0, _, layOut_eq, encode_eq, rfl, hlines,
    rfl, rfl, rfl, hdepth, hlocals, rfl, rfl⟩

end splitLines

/-- Source lines that were read from two tables are written in one. -/
theorem holdsTables_of_assemble_splitLines :
    decodeMethod splitLines.pool splitLines.blank splitLines.body = .ok splitLines.method ∧
      splitLines.pool.WellFormed ∧
      assemble splitLines.method splitLines.pool #[] =
        ((.ok splitLines.assembled, splitLines.pool), #[]) ∧
      ∃ l q, layOut splitLines.method splitLines.pool = (.ok l, q) ∧
        splitLines.assembled.HoldsTables splitLines.method l splitLines.pool :=
  ⟨splitLines.decodeMethod_eq, splitLines.wellFormed_pool, splitLines.assemble_eq,
    holdsTables_of_assemble splitLines.decodeMethod_eq splitLines.wellFormed_pool
      splitLines.assemble_eq⟩

end Rewire
