import Mathlib
import Rewire.Code.Assemble
import Rewire.Code.Decode
import Rewire.Proofs.Attribute
import Rewire.Proofs.Frames.Collide

/-!
# Code attributes in parts

The body of a code attribute is read as the parts it was put together from. This file shows

* that the entries of each table are read as they were written (`reads_rawHandler`,
  `reads_lineEntry`, `reads_rawLocal`), and so are tables of them (`reads_counted`);
* what sorting the nested attributes does (`take_lines`, `take_locals`, `take_localTypes`,
  `take_kept`), and which attributes are kept whole in parts that were read (`Sorted`);
* that a whole body is read as its parts (`read_body`), and that the offsets in parts that were read
  are 32-bit numbers (`CodeParts.offsetsFit_of_read`).
-/

namespace Rewire

open Reader

/-! ## 1. Entries of tables -/

/-- Whether the offsets of an exception region fit two bytes. -/
def RawHandler.Fits (h : RawHandler) : Prop :=
  h.start ≤ 0xffff ∧ h.stop ≤ 0xffff ∧ h.handler ≤ 0xffff

/-- The bytes of an exception region. -/
def RawHandler.bytes (h : RawHandler) : Bytes :=
  offset16 h.start ++ offset16 h.stop ++ offset16 h.handler ++ be16 h.catchType

theorem reads_rawHandler {h : RawHandler} (fits : h.Fits) : Reads rawHandler h.bytes h := by
  obtain ⟨hstart, hstop, hhandler⟩ := fits
  unfold RawHandler.bytes
  simp only [List.append_assoc]
  refine reads_bind (reads_u16 _) (reads_bind (reads_u16 _) (reads_bind (reads_u16 _) ?_))
  have hread := reads_map (fun catchType : UInt16 => RawHandler.mk (UInt16.ofNat h.start).toNat
    (UInt16.ofNat h.stop).toNat (UInt16.ofNat h.handler).toNat catchType) (reads_u16 h.catchType)
  rwa [toNat_ofNat16 hstart, toNat_ofNat16 hstop, toNat_ofNat16 hhandler] at hread ⊢

theorem reads_lineEntry {line : Nat × UInt16} (fits : line.1 ≤ 0xffff) :
    Reads lineEntry (encodeLine line) line := by
  have hread := reads_map (fun number : UInt16 => ((UInt16.ofNat line.1).toNat, number))
    (reads_u16 line.2)
  have h : Reads lineEntry (offset16 line.1 ++ be16 line.2) _ := reads_bind (reads_u16 _) hread
  rwa [toNat_ofNat16 fits] at h

/-- Whether the region of a local variable record lies in order and fits two bytes. -/
def RawLocal.Fits (r : RawLocal) : Prop :=
  r.start ≤ r.stop ∧ r.stop ≤ 0xffff

/-- The bytes of a local variable record. -/
def RawLocal.bytes (r : RawLocal) : Bytes :=
  offset16 r.start ++ offset16 (r.stop - r.start) ++ be16 r.name ++ be16 r.descriptor ++ be16 r.slot

theorem reads_rawLocal {r : RawLocal} (fits : r.Fits) : Reads rawLocal r.bytes r := by
  obtain ⟨horder, hstop⟩ := fits
  have hstart : (UInt16.ofNat r.start).toNat = r.start := toNat_ofNat16 (horder.trans hstop)
  have hlength : (UInt16.ofNat (r.stop - r.start)).toNat = r.stop - r.start :=
    toNat_ofNat16 ((Nat.sub_le _ _).trans hstop)
  unfold RawLocal.bytes
  simp only [List.append_assoc]
  refine reads_bind (reads_u16 _) (reads_bind (reads_u16 _) (reads_bind (reads_u16 _)
    (reads_bind (reads_u16 _) ?_)))
  have hread := reads_map (fun slot : UInt16 => RawLocal.mk (UInt16.ofNat r.start).toNat
    ((UInt16.ofNat r.start).toNat + (UInt16.ofNat (r.stop - r.start)).toNat) r.name r.descriptor
    slot) (reads_u16 r.slot)
  rw [hstart, hlength, Nat.add_sub_cancel' horder] at hread
  rw [hstart, hlength, Nat.add_sub_cancel' horder]
  exact hread

/-! ## 2. Tables -/

/-- A counted table is read entry by entry. -/
theorem reads_counted {α γ : Type} {entry : Reader α} {entries : List γ} {bytes : γ → Bytes}
    (value : γ → α) (few : entries.length ≤ 0xffff)
    (h : ∀ e ∈ entries, Reads entry (bytes e) (value e)) :
    Reads (counted entry) (tableBytes (entries.map bytes)) (entries.map value) := by
  have hread := reads_times value h
  have hcount : (UInt16.ofNat entries.length).toNat = entries.length := toNat_ofNat16 few
  rw [← hcount] at hread
  unfold tableBytes offset16
  rw [List.length_map, ← List.flatMap_def]
  exact reads_bind (reads_u16 _) hread

/-- A counted table at the start of a byte string. -/
theorem onBytes_counted {α γ : Type} {entry : Reader α} {entries : List γ} {bytes : γ → Bytes}
    (value : γ → α) (few : entries.length ≤ 0xffff)
    (h : ∀ e ∈ entries, Reads entry (bytes e) (value e))
    (small : (tableBytes (entries.map bytes)).length < positionLimit) :
    (counted entry).onBytes (tableBytes (entries.map bytes)) = .ok (entries.map value) :=
  (reads_counted value few h).onBytes_self small

/-! ## 3. Nested attributes -/

/-- Whether an attribute is kept whole: it is no table, and its frames can be read if it has any. -/
def KeptWhole (a : String × Bytes) : Prop :=
  a.1 ≠ AttributeName.lineNumbers ∧ a.1 ≠ AttributeName.locals ∧ a.1 ≠ AttributeName.localTypes ∧
    (a.1 = AttributeName.stackMap → ∃ frames, readFrames a.2 = .ok frames)

/-- The offsets that frames mention, after one more attribute. -/
def frameOffsetsAfter (offsets : List Nat) (a : String × Bytes) : List Nat :=
  if a.1 = AttributeName.stackMap then
    match readFrames a.2 with
    | .ok frames => frames.flatMap Frame.offsets
    | .error _ => offsets
  else offsets

/-- The offsets that the frames of the last stack map table mention. -/
def lastFrameOffsets (attributes : List (String × Bytes)) : List Nat :=
  attributes.foldl frameOffsetsAfter []

section Take

variable {parts parts' : CodeParts} {name : String} {body : Bytes}

theorem take_kept (h : KeptWhole (name, body)) :
    parts.take name body = .ok { parts with
      frameOffsets := frameOffsetsAfter parts.frameOffsets (name, body)
      others := parts.others ++ [(name, body)] } := by
  obtain ⟨hlines, hlocals, hlocalTypes, hframes⟩ := h
  unfold CodeParts.take frameOffsetsAfter
  rw [if_neg hlines, if_neg hlocals, if_neg hlocalTypes]
  by_cases hstack : name = AttributeName.stackMap
  · obtain ⟨frames, hframes⟩ := hframes hstack
    simp only at hframes
    simp only [if_pos hstack, hframes]
    rfl
  · simp only [if_neg hstack]
    rfl

theorem take_lines {lines : List (Nat × UInt16)} (few : lines.length ≤ 0xffff)
    (fits : ∀ line ∈ lines, line.1 ≤ 0xffff)
    (small : (tableBytes (lines.map encodeLine)).length < positionLimit) :
    parts.take AttributeName.lineNumbers (tableBytes (lines.map encodeLine)) =
      .ok { parts with lines := parts.lines ++ lines } := by
  have hread : (counted lineEntry).onBytes (tableBytes (lines.map encodeLine)) =
      .ok (lines.map id) :=
    onBytes_counted id few (fun e he => reads_lineEntry (fits e he)) small
  rw [List.map_id] at hread
  unfold CodeParts.take
  rw [if_pos rfl, hread]
  rfl

theorem onBytes_locals {records : List RawLocal} (few : records.length ≤ 0xffff)
    (fits : ∀ r ∈ records, r.Fits)
    (small : (tableBytes (records.map RawLocal.bytes)).length < positionLimit) :
    (counted rawLocal).onBytes (tableBytes (records.map RawLocal.bytes)) = .ok records := by
  have hread : (counted rawLocal).onBytes (tableBytes (records.map RawLocal.bytes)) =
      .ok (records.map id) :=
    onBytes_counted id few (fun e he => reads_rawLocal (fits e he)) small
  rwa [List.map_id] at hread

theorem take_locals {records : List RawLocal} (few : records.length ≤ 0xffff)
    (fits : ∀ r ∈ records, r.Fits)
    (small : (tableBytes (records.map RawLocal.bytes)).length < positionLimit) :
    parts.take AttributeName.locals (tableBytes (records.map RawLocal.bytes)) =
      .ok { parts with locals := parts.locals ++ records } := by
  unfold CodeParts.take
  rw [if_neg (by decide), if_pos rfl, onBytes_locals few fits small]
  rfl

theorem take_localTypes {records : List RawLocal} (few : records.length ≤ 0xffff)
    (fits : ∀ r ∈ records, r.Fits)
    (small : (tableBytes (records.map RawLocal.bytes)).length < positionLimit) :
    parts.take AttributeName.localTypes (tableBytes (records.map RawLocal.bytes)) =
      .ok { parts with localTypes := parts.localTypes ++ records } := by
  unfold CodeParts.take
  rw [if_neg (by decide), if_neg (by decide), if_pos rfl, onBytes_locals few fits small]
  rfl

/-- Parts whose attributes are sorted: those that are kept whole can be kept again, and the last
    stack map table among them tells the offsets of frames. -/
structure CodeParts.Sorted (parts : CodeParts) : Prop where
  kept : ∀ a ∈ parts.others, KeptWhole a
  frames : parts.frameOffsets = lastFrameOffsets parts.others

theorem lastFrameOffsets_concat (attributes : List (String × Bytes)) (a : String × Bytes) :
    lastFrameOffsets (attributes ++ [a]) = frameOffsetsAfter (lastFrameOffsets attributes) a := by
  rw [lastFrameOffsets, List.foldl_append]
  rfl

/-- Only stack map tables have frames. -/
theorem lastFrameOffsets_filter (attributes : List (String × Bytes)) :
    lastFrameOffsets (attributes.filter fun a => a.1 = AttributeName.stackMap) =
      lastFrameOffsets attributes := by
  induction attributes using List.reverseRecOn with
  | nil => rfl
  | append_singleton before a ih =>
    rw [List.filter_append, lastFrameOffsets_concat]
    by_cases hname : a.1 = AttributeName.stackMap
    · rw [List.filter_cons_of_pos (by simpa using hname), List.filter_nil, lastFrameOffsets_concat,
        ih]
    · rw [List.filter_cons_of_neg (by simpa using hname), List.filter_nil, List.append_nil, ih,
        frameOffsetsAfter, if_neg hname]

/-- The frames of the only stack map table are the last ones. -/
theorem lastFrameOffsets_of_single {attributes : List (String × Bytes)} {table : Bytes}
    {frames : List Frame} (hframes : readFrames table = .ok frames)
    (hone : (attributes.filter fun a => a.1 = AttributeName.stackMap) =
      [(AttributeName.stackMap, table)]) :
    lastFrameOffsets attributes = frames.flatMap Frame.offsets := by
  rw [← lastFrameOffsets_filter, hone]
  show frameOffsetsAfter [] (AttributeName.stackMap, table) = _
  rw [frameOffsetsAfter, if_pos rfl]
  simp only [hframes]

/-- Sorting one more attribute in. -/
theorem CodeParts.Sorted.take (h : parts.Sorted) (ht : parts.take name body = .ok parts') :
    parts'.Sorted := by
  by_cases hkept : KeptWhole (name, body)
  · rw [take_kept hkept] at ht
    cases ht
    refine ⟨fun a ha => ?_, ?_⟩
    · rcases List.mem_append.1 ha with ha | ha
      · exact h.kept a ha
      · rw [List.mem_singleton.1 ha]
        exact hkept
    · rw [lastFrameOffsets_concat, ← h.frames]
  · unfold CodeParts.take at ht
    split at ht
    · obtain ⟨lines, -, ht⟩ := bind_eq_ok.1 ht
      cases ht
      exact ⟨h.kept, h.frames⟩
    split at ht
    · obtain ⟨records, -, ht⟩ := bind_eq_ok.1 ht
      cases ht
      exact ⟨h.kept, h.frames⟩
    split at ht
    · obtain ⟨records, -, ht⟩ := bind_eq_ok.1 ht
      cases ht
      exact ⟨h.kept, h.frames⟩
    rename_i hlines hlocals hlocalTypes
    split at ht
    · obtain ⟨frames, hframes, -⟩ := bind_eq_ok.1 ht
      rw [during_eq_ok] at hframes
      exact absurd ⟨hlines, hlocals, hlocalTypes, fun _ => ⟨frames, hframes⟩⟩ hkept
    · rename_i hstack
      exact absurd ⟨hlines, hlocals, hlocalTypes, fun h => absurd h hstack⟩ hkept

/-- Attributes that are kept whole, sorted in one after another. -/
theorem foldlM_take_kept {attributes : List (String × Bytes)} (h : ∀ a ∈ attributes, KeptWhole a) :
    attributes.foldlM (fun parts a => CodeParts.take parts a.1 a.2) parts = .ok { parts with
      frameOffsets := attributes.foldl frameOffsetsAfter parts.frameOffsets
      others := parts.others ++ attributes } := by
  induction attributes generalizing parts with
  | nil =>
    rw [List.foldlM_nil, List.append_nil]
    rfl
  | cons a rest ih =>
    rw [List.foldlM_cons]
    refine bind_eq_ok.2 ⟨_, take_kept (h a List.mem_cons_self), ?_⟩
    rw [ih fun b hb => h b (List.mem_cons_of_mem _ hb)]
    simp

end Take

/-- Resolves the name of an attribute and sorts it in. -/
def takeAttribute (pool : ConstantPool) (parts : CodeParts) (a : RawAttribute) :
    Outcome CodeParts := do
  let name ← pool.text a.name
  parts.take name a.body

theorem reads_readAttribute {pool : ConstantPool} {parts parts' : CodeParts} {a : RawAttribute}
    (fits : a.Fits) (h : takeAttribute pool parts a = .ok parts') :
    Reads (parts.readAttribute pool) a.spelled parts' := by
  obtain ⟨name, hname, h⟩ := bind_eq_ok.1 h
  have hrest : Reads (do
      let name ← during .resolvingAttributeName (pool.text a.name : Outcome String)
      parts.take name a.body) ([] ++ []) parts' :=
    reads_bind (reads_during _ (reads_lift hname)) (reads_lift h)
  have hread : Reads (parts.readAttribute pool) (a.spelled ++ ([] ++ [])) parts' :=
    reads_bind (reads_rawAttribute fits) hrest
  simpa using hread

/-! ## 4. Whole bodies -/

/-- Attributes are read one after another, each sorted in. -/
theorem reads_attributes {pool : ConstantPool} {attributes : List RawAttribute}
    {parts parts' : CodeParts} (fits : ∀ a ∈ attributes, a.Fits)
    (h : attributes.foldlM (takeAttribute pool) parts = .ok parts') :
    Reads (repeated attributes.length (fun parts => parts.readAttribute pool) parts)
      (attributes.flatMap RawAttribute.spelled) parts' := by
  induction attributes using List.reverseRecOn generalizing parts' with
  | nil =>
    cases h
    exact reads_pure parts
  | append_singleton before a ih =>
    rw [List.foldlM_append] at h
    obtain ⟨middle, hmiddle, h⟩ := bind_eq_ok.1 h
    simp only [List.foldlM_cons, List.foldlM_nil, bind_pure] at h
    have hbefore := ih (fun b hb => fits b (List.mem_append_left _ hb)) hmiddle
    have hlast := reads_readAttribute (fits a (List.mem_append_right _ List.mem_cons_self)) h
    rw [List.length_append, List.flatMap_append, List.flatMap_singleton]
    exact reads_repeated_succ hbefore hlast

theorem length_tableBytes {α : Type} (bytes : α → Bytes) (width : Nat) (entries : List α)
    (h : ∀ e, (bytes e).length = width) :
    (tableBytes (entries.map bytes)).length = 2 + width * entries.length := by
  unfold tableBytes offset16
  rw [List.length_append, length_be16, ← List.flatMap_def]
  congr 1
  induction entries with
  | nil => simp
  | cons e rest ih =>
    rw [List.flatMap_cons, List.length_append, ih, h, List.length_cons, Nat.mul_succ, Nat.add_comm]

/-- The body of a code attribute. -/
def codeBody (maxStack maxLocals : UInt16) (code : Bytes) (handlers : List RawHandler)
    (attributes : Bytes) : Bytes :=
  be16 maxStack ++ be16 maxLocals ++ be32 (UInt32.ofNat code.length) ++ code ++
    tableBytes (handlers.map RawHandler.bytes) ++ attributes

/-- **A body is read as its parts**, its attributes sorted in one after another. -/
theorem read_codeBody {pool : ConstantPool} {maxStack maxLocals : UInt16} {code : Bytes}
    {handlers : List RawHandler} {attributes : List RawAttribute} {bytes : Bytes}
    {parts : CodeParts} (codeFits : code.length ≤ 0xffff) (few : handlers.length ≤ 0xffff)
    (fits : ∀ h ∈ handlers, h.Fits) (hbytes : attributesBytes attributes = .ok bytes)
    (h : attributes.foldlM (takeAttribute pool)
      { maxStack, maxLocals, code := code.toArray, handlers } = .ok parts) :
    CodeParts.read pool (codeBody maxStack maxLocals code handlers bytes) = .ok parts := by
  obtain ⟨fewAttributes, attributesFit, rfl⟩ := attributesBytes_eq_ok hbytes
  have hcount : (UInt16.ofNat attributes.length).toNat = attributes.length :=
    toNat_ofNat16 fewAttributes
  have hlength : (UInt32.ofNat code.length).toNat = code.length := by
    rw [UInt32.toNat_ofNat']
    omega
  have hattributes := reads_attributes attributesFit h
  rw [← hcount] at hattributes
  have hhandlers : Reads (counted rawHandler) (tableBytes (handlers.map RawHandler.bytes))
      (handlers.map id) := reads_counted id few fun e he => reads_rawHandler (fits e he)
  rw [List.map_id] at hhandlers
  have hcode := reads_bytes code
  rw [← hlength] at hcode
  have hread : Reads (CodeParts.reader pool) (codeBody maxStack maxLocals code handlers
      (offset16 attributes.length ++ attributes.flatMap RawAttribute.spelled)) parts := by
    unfold CodeParts.reader codeBody
    simp only [List.append_assoc]
    exact reads_u16_bind _ (reads_u16_bind _ (reads_bind (reads_u32 _) (reads_bind hcode
      (reads_bind hhandlers (reads_u16_bind _ hattributes)))))
  refine hread.onBytes_self ?_
  have hspelled := length_spelled_le attributesFit
  have htable := length_tableBytes RawHandler.bytes 8 handlers fun _ => rfl
  unfold codeBody offset16
  simp only [List.length_append, length_be16, length_be32, htable, positionLimit]
  have := Nat.mul_le_mul_right 0x100000005 fewAttributes
  omega

/-- What sorting in keeps, reading keeps. -/
theorem CodeParts.gives_readAttribute {P : CodeParts → Prop} {pool : ConstantPool}
    (htake : ∀ parts parts' name body, P parts → CodeParts.take parts name body = .ok parts' →
      P parts') (parts : CodeParts) (h : P parts) : Gives (parts.readAttribute pool) P :=
  gives_bind gives_any fun a _ => gives_bind gives_any fun name _ =>
    gives_lift fun parts' hparts => htake parts parts' name a.body h hparts

/-- Parts that were read are sorted. -/
theorem CodeParts.sorted_of_read {pool : ConstantPool} {body : Bytes} {parts : CodeParts}
    (h : CodeParts.read pool body = .ok parts) : parts.Sorted := by
  have hgives : Gives (CodeParts.reader pool) CodeParts.Sorted :=
    gives_bind gives_any fun maxStack _ => gives_bind gives_any fun maxLocals _ =>
      gives_bind gives_any fun length _ => gives_bind gives_any fun code _ =>
      gives_bind gives_any fun handlers _ => gives_bind gives_any fun count _ =>
      gives_repeated (gives_readAttribute fun _ _ _ _ => Sorted.take) _
        ⟨fun a ha => (List.not_mem_nil ha).elim, rfl⟩
  exact hgives.onBytes h

/-- Sorting an attribute in leaves limits, code and exception regions alone. -/
theorem CodeParts.exists_of_take {parts parts' : CodeParts} {name : String} {body : Bytes}
    (h : parts.take name body = .ok parts') : ∃ lines locals localTypes frameOffsets others,
      parts' = { parts with lines, locals, localTypes, frameOffsets, others } := by
  unfold CodeParts.take at h
  split at h
  · obtain ⟨lines, -, h⟩ := bind_eq_ok.1 h
    cases h
    exact ⟨_, _, _, _, _, rfl⟩
  split at h
  · obtain ⟨locals, -, h⟩ := bind_eq_ok.1 h
    cases h
    exact ⟨_, _, _, _, _, rfl⟩
  split at h
  · obtain ⟨localTypes, -, h⟩ := bind_eq_ok.1 h
    cases h
    exact ⟨_, _, _, _, _, rfl⟩
  split at h
  · obtain ⟨frames, -, h⟩ := bind_eq_ok.1 h
    cases h
    exact ⟨_, _, _, _, _, rfl⟩
  · cases h
    exact ⟨_, _, _, _, _, rfl⟩

theorem CodeParts.code_of_take {parts parts' : CodeParts} {name : String} {body : Bytes}
    (h : parts.take name body = .ok parts') : parts'.code = parts.code := by
  obtain ⟨_, _, _, _, _, rfl⟩ := exists_of_take h
  rfl

/-- The code of a body is read as it stands, whatever follows it. -/
theorem CodeParts.code_of_read {pool : ConstantPool} {maxStack maxLocals : UInt16} {code : Bytes}
    {handlers : List RawHandler} {attributes : Bytes} {parts : CodeParts}
    (codeFits : code.length ≤ 0xffff)
    (h : CodeParts.read pool (codeBody maxStack maxLocals code handlers attributes) = .ok parts) :
    parts.code = code.toArray := by
  have hlength : (UInt32.ofNat code.length).toNat = code.length := by
    rw [UInt32.toNat_ofNat']
    omega
  obtain ⟨⟨parts', c⟩, hread, h⟩ := bind_eq_ok.1 h
  cases h
  unfold codeBody at hread
  simp only [List.append_assoc] at hread
  rw [← List.nil_append (be16 maxStack ++ _)] at hread
  have hlimits := (reads_u16 maxLocals).of_bind ((reads_u16 maxStack).of_bind hread)
  have hcode := (reads_u32 (UInt32.ofNat code.length)).of_bind hlimits
  rw [hlength] at hcode
  have hrest := (reads_bytes code).of_bind hcode
  have hkept : ∀ s : CodeParts, s.code = code.toArray →
      Gives (s.readAttribute pool) fun parts => parts.code = code.toArray :=
    gives_readAttribute fun _ _ _ _ h htake => (code_of_take htake).trans h
  obtain ⟨raws, _, -, hrest⟩ := Reader.bind_eq_ok.1 hrest
  obtain ⟨count, _, -, hrest⟩ := Reader.bind_eq_ok.1 hrest
  have hstart : ({ maxStack, maxLocals, code := code.toArray, handlers := raws } : CodeParts).code =
      code.toArray := rfl
  exact gives_repeated hkept count.toNat hstart _ _ _ hrest

/-! ## 5. Offsets -/

/-- Whether the offsets in tables are below the greatest 32-bit number. -/
structure CodeParts.OffsetsFit (parts : CodeParts) : Prop where
  handlers : ∀ h ∈ parts.handlers, h.Fits
  locals : ∀ l ∈ parts.locals ++ parts.localTypes, l.start ≤ 0xffff ∧ l.stop ≤ 0x1fffe
  frames : ∀ n ∈ parts.frameOffsets, n < 0xffffffff

theorem CodeParts.OffsetsFit.lt {parts : CodeParts} (h : parts.OffsetsFit) {n : Nat}
    (hn : n ∈ parts.tableOffsets) : n < 0xffffffff := by
  rcases List.mem_append.1 hn with hn | hn
  · rcases List.mem_append.1 hn with hn | hn
    · obtain ⟨raw, hraw, hn⟩ := List.mem_flatMap.1 hn
      obtain ⟨hstart, hstop, hhandler⟩ := h.handlers raw hraw
      simp only [List.mem_cons, List.not_mem_nil, or_false] at hn
      omega
    · obtain ⟨raw, hraw, hn⟩ := List.mem_flatMap.1 hn
      obtain ⟨hstart, hstop⟩ := h.locals raw hraw
      simp only [List.mem_cons, List.not_mem_nil, or_false] at hn
      omega
  · exact h.frames n hn

namespace Reader

theorem gives_u16_le : Gives u16 fun n => n.toNat ≤ 0xffff :=
  fun _ n _ _ => Nat.le_of_lt_succ n.toNat_lt

theorem gives_rawHandler : Gives rawHandler RawHandler.Fits :=
  gives_bind gives_u16_le fun _ hstart => gives_bind gives_u16_le fun _ hstop =>
    gives_bind gives_u16_le fun _ hhandler => gives_bind gives_any fun _ _ =>
      gives_pure ⟨hstart, hstop, hhandler⟩

theorem gives_rawLocal : Gives rawLocal fun l => l.start ≤ 0xffff ∧ l.stop ≤ 0x1fffe :=
  gives_bind gives_u16_le fun _ hstart => gives_bind gives_u16_le fun _ hlength =>
    gives_bind gives_any fun _ _ => gives_bind gives_any fun _ _ => gives_bind gives_any fun _ _ =>
      gives_pure ⟨hstart, Nat.add_le_add hstart hlength⟩

theorem gives_counted {α : Type} {entry : Reader α} {P : α → Prop} (h : Gives entry P) :
    Gives (counted entry) fun entries => ∀ e ∈ entries, P e :=
  gives_bind gives_any fun _ _ => gives_times_forall h _

end Reader

/-- Sorting one more attribute in. -/
theorem CodeParts.OffsetsFit.take {parts parts' : CodeParts} {name : String} {body : Bytes}
    (h : parts.OffsetsFit) (ht : parts.take name body = .ok parts') : parts'.OffsetsFit := by
  have hrecords : ∀ {records}, (counted rawLocal).onBytes body = .ok records →
      ∀ l ∈ records, l.start ≤ 0xffff ∧ l.stop ≤ 0x1fffe :=
    (gives_counted gives_rawLocal).onBytes
  obtain ⟨hlocals, hlocalTypes⟩ := List.forall_mem_append.1 h.locals
  unfold CodeParts.take at ht
  split at ht
  · obtain ⟨lines, -, ht⟩ := bind_eq_ok.1 ht
    cases ht
    exact ⟨h.handlers, h.locals, h.frames⟩
  split at ht
  · obtain ⟨records, hread, ht⟩ := bind_eq_ok.1 ht
    cases ht
    exact ⟨h.handlers, List.forall_mem_append.2
      ⟨List.forall_mem_append.2 ⟨hlocals, hrecords hread⟩, hlocalTypes⟩, h.frames⟩
  split at ht
  · obtain ⟨records, hread, ht⟩ := bind_eq_ok.1 ht
    cases ht
    exact ⟨h.handlers, List.forall_mem_append.2
      ⟨hlocals, List.forall_mem_append.2 ⟨hlocalTypes, hrecords hread⟩⟩, h.frames⟩
  split at ht
  · obtain ⟨frames, hframes, ht⟩ := bind_eq_ok.1 ht
    cases ht
    exact ⟨h.handlers, h.locals, fun n => lt_of_readFrames (during_eq_ok.1 hframes)⟩
  · cases ht
    exact ⟨h.handlers, h.locals, h.frames⟩

/-- **The offsets in a body that was read** are 32-bit numbers, the end of the code among them. -/
theorem CodeParts.offsetsFit_of_read {pool : ConstantPool} {body : Bytes} {parts : CodeParts}
    (h : CodeParts.read pool body = .ok parts) :
    parts.OffsetsFit ∧ parts.code.size ≤ 0xffffffff := by
  have hstep : ∀ s : CodeParts, s.OffsetsFit ∧ s.code.size ≤ 0xffffffff →
      Gives (s.readAttribute pool) fun parts => parts.OffsetsFit ∧ parts.code.size ≤ 0xffffffff :=
    gives_readAttribute fun _ _ _ _ h htake => ⟨h.1.take htake, code_of_take htake ▸ h.2⟩
  have hgives : Gives (CodeParts.reader pool) fun parts =>
      parts.OffsetsFit ∧ parts.code.size ≤ 0xffffffff :=
    gives_bind gives_any fun maxStack _ => gives_bind gives_any fun maxLocals _ =>
      gives_bind gives_any fun length _ => gives_bind (gives_bytes _) fun code hcode =>
      gives_bind (gives_counted gives_rawHandler) fun handlers hhandlers =>
      gives_bind gives_any fun count _ => gives_repeated hstep _
        ⟨⟨hhandlers, fun _ hl => (List.not_mem_nil hl).elim, fun _ hn => (List.not_mem_nil hn).elim⟩, by
          rw [List.size_toArray, hcode]
          exact Nat.le_of_lt_succ length.toNat_lt⟩
  exact hgives.onBytes h

end Rewire
