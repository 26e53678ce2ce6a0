import Mathlib
import Rewire.Proofs.ClassFile.Apply

/-!
# Decoding a class that was written back

Edited methods are written back into the code attributes of their class. This file shows

* the number of attributes named `Code` is kept, if the first of an entry has the slot that the
  program gives that name (`codeCount_kept`, `FirstCode.codeCount_setCode`), and if none has that
  slot there is one more (`MemberInfo.NamesExist.codeCount_setCode`);
* an entry is then decoded from the body it was given (`ClassFile.decodeMember_setCode`), and
  otherwise as before, so that the edit is lost (`ClassFile.decodeMember_setCode_kept`);
* what this means for each method of a class, which was modified or not
  (`MemberInfo.WrittenAs.decode`, `MemberInfo.WrittenAs.codeCount_eq`), and so for the class
  (`ClassFile.decode_apply`).
-/

namespace Rewire

open ConstantPool

/-! ## 1. Names in grown pools -/

section Names

variable {p q : ConstantPool} {i j : UInt16} {s : String}

/-- A slot reads as it did before others were added. -/
theorem ConstantPool.GrowsTo.text_iff_of_lt (h : p.GrowsTo q) (hj : j.toNat < p.size) :
    q.text j = .ok s ↔ p.text j = .ok s := by
  refine ⟨fun hs => ?_, h.text⟩
  obtain ⟨bytes, hget, hdecode⟩ := text_eq_ok.1 hs
  have hslot := get_eq_ok.1 hget
  rw [h.slot_eq hj] at hslot
  exact text_eq_ok.2 ⟨bytes, get_eq_ok.2 hslot, hdecode⟩

/-- A text that has its slot is not what added slots denote. -/
theorem ConstantPool.GrowsTo.text_iff (h : p.GrowsTo q)
    (hi : p.IsFirstSlot (.utf8 (Modified.encodeText s)) i) :
    q.text j = .ok s ↔ p.text j = .ok s := by
  by_cases hj : j.toNat < p.size
  · exact h.text_iff_of_lt hj
  · refine ⟨fun hs => ?_, h.text⟩
    obtain ⟨bytes, hget, hdecode⟩ := text_eq_ok.1 hs
    have hslot := get_eq_ok.1 hget
    have hout := Nat.le_of_not_lt hj
    obtain ⟨hfirst, hwritten⟩ := h.fresh j.toNat _ hout hslot
    obtain ⟨t, rfl⟩ := hwritten bytes rfl
    rw [Modified.decodeText_encodeText] at hdecode
    cases hdecode
    exact absurd (h.slot hi.1) (hfirst i.toNat (hi.lt_size.trans_le hout))

end Names

/-! ## 2. Number of code attributes -/

/-- Whether an attribute is named `Code`. -/
def RawAttribute.isCode (pool : ConstantPool) (a : RawAttribute) : Bool :=
  (pool.text a.name).toOption == some AttributeName.code

/-- Number of attributes named `Code`. -/
def MemberInfo.codeCount (pool : ConstantPool) (entry : MemberInfo) : Nat :=
  entry.attributes.countP (RawAttribute.isCode pool)

/-- Whether the lengths of all attributes fit the bytes they are written in. -/
def MemberInfo.AttributesFit (entry : MemberInfo) : Prop :=
  ∀ a ∈ entry.attributes, a.Fits

/-- Whether the first attribute named `Code`, if there is one, has the slot of that name. -/
def MemberInfo.CodeIsFound (pool : ConstantPool) (entry : MemberInfo) : Prop :=
  ∀ before a after, FirstCode pool entry.attributes before a after →
    pool.IsFirstSlot (.utf8 (Modified.encodeText AttributeName.code)) a.name

/-- Whether the names of all attributes are slots of the pool. -/
def MemberInfo.NamesExist (pool : ConstantPool) (entry : MemberInfo) : Prop :=
  ∀ a ∈ entry.attributes, a.name.toNat < pool.size

section Count

variable {p q : ConstantPool} {entry : MemberInfo} {before after : List RawAttribute}
  {a : RawAttribute}

theorem RawAttribute.isCode_iff :
    a.isCode p = true ↔ p.text a.name = .ok AttributeName.code := by
  unfold isCode
  cases p.text a.name with
  | error e => simp [Except.toOption]
  | ok s => simp [Except.toOption]

theorem NoCode.codeCount_eq (h : NoCode p entry.attributes) : entry.codeCount p = 0 := by
  refine List.countP_eq_zero.2 fun b hb hcode => ?_
  obtain ⟨s, hs, hne⟩ := h b hb
  rw [RawAttribute.isCode_iff, hs] at hcode
  exact hne (Except.ok.inj hcode)

theorem countP_isCode {attributes : List RawAttribute}
    (same : ∀ b ∈ attributes,
      q.text b.name = .ok AttributeName.code ↔ p.text b.name = .ok AttributeName.code) :
    attributes.countP (RawAttribute.isCode q) = attributes.countP (RawAttribute.isCode p) :=
  List.countP_congr fun b hb => by rw [RawAttribute.isCode_iff, RawAttribute.isCode_iff, same b hb]

/-- An entry that is kept has as many code attributes as before. -/
theorem codeCount_kept (hpq : p.GrowsTo q) (found : entry.CodeIsFound p)
    (named : NoCode p entry.attributes ∨
      ∃ before a after, FirstCode p entry.attributes before a after) :
    entry.codeCount q = entry.codeCount p := by
  rcases named with none | ⟨before, a, after, first⟩
  · rw [none.codeCount_eq, (none.growsTo hpq).codeCount_eq]
  · exact countP_isCode fun _ _ => hpq.text_iff (found before a after first)

/-- An entry whose first code attribute is replaced has as many as before. -/
theorem FirstCode.codeCount_setCode (h : FirstCode p entry.attributes before a after)
    (hpq : p.GrowsTo q)
    (hfirst : p.IsFirstSlot (.utf8 (Modified.encodeText AttributeName.code)) a.name)
    (body : Bytes) : (entry.setCode a.name body).codeCount q = entry.codeCount p := by
  unfold MemberInfo.codeCount MemberInfo.setCode
  simp only
  rw [(h.growsTo hpq).replaced (hpq.text h.code), if_pos rfl, h.eq,
    countP_isCode fun _ _ => hpq.text_iff hfirst, List.countP_append, List.countP_append,
    List.countP_cons, List.countP_cons]
  rfl

/-- So has one that is kept and whose attributes all have names. -/
theorem MemberInfo.NamesExist.codeCount_kept (names : entry.NamesExist p) (hpq : p.GrowsTo q) :
    entry.codeCount q = entry.codeCount p :=
  countP_isCode fun b hb => hpq.text_iff_of_lt (names b hb)

/-- An entry in which no attribute has the slot of the name `Code` gets one code attribute more. -/
theorem MemberInfo.NamesExist.codeCount_setCode (names : entry.NamesExist p) (hpq : p.GrowsTo q)
    {codeName : UInt16} (hname : q.text codeName = .ok AttributeName.code)
    (unnamed : ∀ b ∈ entry.attributes, b.name ≠ codeName) (body : Bytes) :
    (entry.setCode codeName body).codeCount q = entry.codeCount p + 1 := by
  have hcode : RawAttribute.isCode q ⟨codeName, body⟩ = true := RawAttribute.isCode_iff.2 hname
  unfold MemberInfo.codeCount MemberInfo.setCode
  rcases replaceFirstOrAppend_cases (fun a => a.name == codeName) ⟨codeName, body⟩
    entry.attributes with ⟨before, old, after, heq, -, hold, -⟩ | ⟨-, heq⟩
  · have hmem : old ∈ entry.attributes := heq ▸ List.mem_append_right before List.mem_cons_self
    exact absurd (beq_iff_eq.1 hold) (unnamed old hmem)
  · simp only
    rw [heq, List.countP_append, List.countP_singleton, if_pos hcode]
    exact congrArg (· + 1) (names.codeCount_kept hpq)

end Count

/-! ## 3. Decoding entries -/

namespace ClassFile

variable {c c' : ClassFile} {owner : String} {entry entry' : MemberInfo} {m m' : Method}

/-- An entry is decoded as the method of its first code attribute, or as one without code. -/
theorem decodeMember_eq_ok : c.decodeMember owner entry = .ok m ↔ ∃ name descriptor,
    c.pool.text entry.name = .ok name ∧ c.pool.text entry.descriptor = .ok descriptor ∧
    (NoCode c.pool entry.attributes ∧ m = { name, descriptor, flags := entry.flags } ∨
      ∃ before a after, FirstCode c.pool entry.attributes before a after ∧
        decodeMethod c.pool { name, descriptor, flags := entry.flags } a.body = .ok m) := by
  unfold decodeMember
  constructor
  · intro h
    obtain ⟨name, hname, h⟩ := bind_eq_ok.1 h
    obtain ⟨descriptor, hdescriptor, h⟩ := bind_eq_ok.1 h
    obtain ⟨found, hfound, h⟩ := bind_eq_ok.1 h
    refine ⟨name, descriptor, hname, hdescriptor, ?_⟩
    cases found with
    | none => exact .inl ⟨findAttribute_eq_none.1 hfound, (pure_eq_ok.1 h).symm⟩
    | some a =>
      obtain ⟨before, after, first⟩ := findAttribute_eq_some.1 hfound
      exact .inr ⟨before, a, after, first, during_eq_ok.1 h⟩
  · rintro ⟨name, descriptor, hname, hdescriptor, hcode⟩
    refine bind_eq_ok.2 ⟨name, hname, bind_eq_ok.2 ⟨descriptor, hdescriptor, ?_⟩⟩
    rcases hcode with ⟨none, rfl⟩ | ⟨before, a, after, first, hm⟩
    · exact bind_eq_ok.2 ⟨_, findAttribute_eq_none.2 none, rfl⟩
    · exact bind_eq_ok.2 ⟨_, findAttribute_eq_some.2 ⟨before, after, first⟩, during_eq_ok.2 hm⟩

theorem decodeMember_growsTo (hpool : c.pool.GrowsTo c'.pool) (owner' : String)
    (h : c.decodeMember owner entry = .ok m) : c'.decodeMember owner' entry = .ok m := by
  obtain ⟨name, descriptor, hname, hdescriptor, hcode⟩ := decodeMember_eq_ok.1 h
  refine decodeMember_eq_ok.2
    ⟨name, descriptor, hpool.text hname, hpool.text hdescriptor, ?_⟩
  rcases hcode with ⟨none, hm⟩ | ⟨before, a, after, first, hm⟩
  · exact .inl ⟨none.growsTo hpool, hm⟩
  · exact .inr ⟨before, a, after, first.growsTo hpool, hpool.decodeMethod _ _ m hm⟩

section SetCode

variable {codeName : UInt16} {before after : List RawAttribute} {a : RawAttribute} {body : Bytes}

/-- Where the first code attribute is known, its body is decoded. -/
theorem decodeMember_of_first (first : FirstCode c.pool entry.attributes before a after) :
    c.decodeMember owner entry = .ok m ↔ ∃ name descriptor,
      c.pool.text entry.name = .ok name ∧ c.pool.text entry.descriptor = .ok descriptor ∧
      decodeMethod c.pool { name, descriptor, flags := entry.flags } a.body = .ok m := by
  have hfound := findAttribute_eq_some.2 ⟨before, after, first⟩
  constructor
  · intro h
    obtain ⟨name, descriptor, hname, hdescriptor, ⟨none, -⟩ | ⟨before', a', after', first', hm⟩⟩ :=
      decodeMember_eq_ok.1 h
    · rw [findAttribute_eq_none.2 none] at hfound
      cases hfound
    · rw [findAttribute_eq_some.2 ⟨before', after', first'⟩] at hfound
      cases hfound
      exact ⟨name, descriptor, hname, hdescriptor, hm⟩
  · rintro ⟨name, descriptor, hname, hdescriptor, hm⟩
    exact decodeMember_eq_ok.2
      ⟨name, descriptor, hname, hdescriptor, .inr ⟨before, a, after, first, hm⟩⟩

/-- An entry whose first code attribute was not replaced is decoded as before. -/
theorem decodeMember_setCode_kept (hpool : c.pool.GrowsTo c'.pool) (owner' : String)
    (hname : c'.pool.text codeName = .ok AttributeName.code)
    (first : FirstCode c.pool entry.attributes before a after) (hne : a.name ≠ codeName)
    (h : c.decodeMember owner entry = .ok m) :
    c'.decodeMember owner' (entry.setCode codeName body) = .ok m := by
  have first' := first.growsTo hpool
  have hkept : FirstCode c'.pool (entry.setCode codeName body).attributes before a
      (replaceFirstOrAppend (fun b => b.name == codeName) ⟨codeName, body⟩ after) := by
    refine ⟨?_, first'.other, first'.code⟩
    rw [MemberInfo.setCode, first'.replaced hname, if_neg hne]
  exact (decodeMember_of_first hkept).2
    ((decodeMember_of_first first').1 (decodeMember_growsTo hpool owner' h))

/-- An entry whose first code attribute was replaced is decoded from the new one. -/
theorem decodeMember_setCode (hpool : c.pool.GrowsTo c'.pool) (owner' : String)
    (first : FirstCode c.pool entry.attributes before a after)
    (h : c.decodeMember owner entry = .ok m) :
    c'.decodeMember owner' (entry.setCode a.name body) = .ok m' ↔
      decodeMethod c'.pool { name := m.name, descriptor := m.descriptor, flags := m.flags } body =
        .ok m' := by
  have first' := first.growsTo hpool
  have hnew : FirstCode c'.pool (entry.setCode a.name body).attributes before ⟨a.name, body⟩
      after := by
    refine ⟨?_, first'.other, first'.code⟩
    rw [MemberInfo.setCode, first'.replaced first'.code, if_pos rfl]
  obtain ⟨name, descriptor, hname, hdescriptor, hm⟩ :=
    (decodeMember_of_first first').1 (decodeMember_growsTo hpool owner h)
  obtain ⟨_, _, _, _, _, _, _, -, -, -, -, -, -, -, rfl⟩ := decodeMethod_eq_ok.1 hm
  rw [decodeMember_of_first hnew]
  constructor
  · rintro ⟨name', descriptor', hname', hdescriptor', hm'⟩
    rw [show c'.pool.text entry.name = .ok name' from hname'] at hname
    rw [show c'.pool.text entry.descriptor = .ok descriptor' from hdescriptor'] at hdescriptor
    cases hname
    cases hdescriptor
    exact hm'
  · exact fun hm' => ⟨name, descriptor, hname, hdescriptor, hm'⟩

/-- An entry without code is decoded from the code attribute it gets. -/
theorem decodeMethod_of_noCode (none : NoCode c.pool entry.attributes)
    (hname : c.pool.text codeName = .ok AttributeName.code)
    (h : c.decodeMember owner (entry.setCode codeName body) = .ok m) :
    ∃ blank, decodeMethod c.pool blank body = .ok m := by
  have hnew : FirstCode c.pool (entry.setCode codeName body).attributes entry.attributes
      ⟨codeName, body⟩ [] := by
    refine ⟨?_, none, hname⟩
    let isCode : RawAttribute → Bool := fun b => b.name == codeName
    have happend : replaceFirstOrAppend isCode ⟨codeName, body⟩ (entry.attributes ++ []) =
        entry.attributes ++ [⟨codeName, body⟩] := replaceFirstOrAppend_append fun b hb => ?_
    · rw [List.append_nil] at happend
      exact happend
    · obtain ⟨s, hs, hne⟩ := none b hb
      rw [beq_eq_false_iff_ne]
      intro heq
      rw [heq, hname] at hs
      exact hne (Except.ok.inj hs).symm
  obtain ⟨name, descriptor, -, -, hm⟩ := (decodeMember_of_first hnew).1 h
  exact ⟨_, hm⟩

end SetCode

end ClassFile

/-! ## 4. Edited methods -/

/-- Whether a method is another one, which had code, with its body edited. -/
structure Method.EditOf (m : Method) (pool : ConstantPool) (before : Method) : Prop where
  hadCode : before.hasCode = true
  origin : m.origin = before.origin
  form : ∀ i ∈ m.insns, i.OpcodeFits
  agrees : ∀ i ∈ m.insns, i.AgreesWith pool
  land : m.JumpsLand
  fits : m.TablesFit

/-- What a method is decoded as after its class was written back: what it was before, or what was
    laid out if it was modified and its code attribute has the slot of the name `Code`. If it has
    another one, the edit is lost. -/
structure Method.ReadAgain (again : Method) (pool : ConstantPool) (entry : MemberInfo)
    (before m : Method) (l : Layout) : Prop where
  name : again.name = before.name
  descriptor : again.descriptor = before.descriptor
  flags : again.flags = before.flags
  kept : m.modified = false → again = before
  edited : m.modified = true → entry.CodeIsFound pool →
    again.resolved = l.resolved ∧ ∃ referenced, again.byOffset = l.byOffsetOf m referenced
  lost : ¬ entry.CodeIsFound pool → again = before

section Written

variable {c c' : ClassFile} {owner : String} {entry entry' : MemberInfo} {before m : Method}
  {codeName : UInt16} {l : Layout}

theorem originIsRead_of_decodeMember (h : c.decodeMember owner entry = .ok m) :
    m.OriginIsRead := by
  intro o ho
  obtain ⟨name, descriptor, -, -, ⟨-, rfl⟩ | ⟨_, a, _, -, hm⟩⟩ := ClassFile.decodeMember_eq_ok.1 h
  · cases ho
  · exact ⟨_, _, _, _, hm, ho⟩

theorem exists_firstCode (h : c.decodeMember owner entry = .ok m) (hcode : m.hasCode = true) :
    ∃ before a after, FirstCode c.pool entry.attributes before a after := by
  obtain ⟨name, descriptor, -, -, ⟨-, rfl⟩ | ⟨before, a, after, first, -⟩⟩ :=
    ClassFile.decodeMember_eq_ok.1 h
  · cases hcode
  · exact ⟨before, a, after, first⟩

/-- An assembled body that does not end in a wide condition is decoded with every pool in which it
    is one. -/
theorem Method.EditOf.decode (edit : m.EditOf c.pool before) (hpool : c.pool.GrowsTo c'.pool)
    (read : before.OriginIsRead) {a : Assembled} (laid : LaidOut m c'.pool l)
    (hof : a.IsOf m l c'.pool) (few : a.body.length < 0x100000000) (blank : Method) :
    (¬ l.EndsInWideCondition → ∃ d referenced, decodeMethod c'.pool blank a.body = .ok d ∧
      d.resolved = l.resolved ∧ d.byOffset = l.byOffsetOf m referenced) ∧
    (l.EndsInWideCondition → ∀ d, decodeMethod c'.pool blank a.body ≠ .ok d) := by
  have read' : m.OriginIsRead := fun o ho => read o (edit.origin ▸ ho)
  have agrees : ∀ i ∈ m.insns, i.AgreesWith c'.pool :=
    fun i hi => (edit.agrees i hi).growsTo hpool
  have counted := hof.entriesFit laid.consistent few
  obtain ⟨parts, hread, hparts⟩ := laid.read counted edit.fits read' hof
  exact ⟨laid.decode counted edit.form agrees edit.land read' hread hparts,
    laid.decode_ne_ok counted edit.form agrees hread hparts⟩

/-- The code that is found has the slot of the name. -/
theorem MemberInfo.CodeIsFound.name_eq {first after : List RawAttribute} {a : RawAttribute}
    (found : entry.CodeIsFound c.pool) (hpool : c.pool.GrowsTo c'.pool)
    (holds : c'.pool.HoldsText AttributeName.code codeName)
    (h : FirstCode c.pool entry.attributes first a after) : a.name = codeName :=
  ((found first a after h).growsTo hpool).unique holds.2

/-- Code that has the slot of the name is found. -/
theorem MemberInfo.codeIsFound_of_name_eq {first after : List RawAttribute} {a : RawAttribute}
    (hpool : c.pool.GrowsTo c'.pool) (holds : c'.pool.HoldsText AttributeName.code codeName)
    (h : FirstCode c.pool entry.attributes first a after) (hname : a.name = codeName) :
    entry.CodeIsFound c.pool := by
  intro first' b after' h'
  rw [h.unique h']
  obtain ⟨bytes, hbytes, -⟩ := text_eq_ok.1 h.code
  have hlt : a.name.toNat < c.pool.size :=
    (Array.getElem?_eq_some_iff.1 (get_eq_ok.1 hbytes)).1
  exact (hname ▸ holds.2 : c'.pool.IsFirstSlot _ a.name).of_growsTo hpool hlt

/-- The body that an entry is given is among its attributes. -/
theorem MemberInfo.mem_setCode (entry : MemberInfo) (codeName : UInt16) (body : Bytes) :
    ⟨codeName, body⟩ ∈ (entry.setCode codeName body).attributes := by
  unfold MemberInfo.setCode
  rcases replaceFirstOrAppend_cases (fun a => a.name == codeName) ⟨codeName, body⟩
    entry.attributes with ⟨before, old, after, -, -, -, heq⟩ | ⟨-, heq⟩
  · rw [heq]
    exact List.mem_append_right before List.mem_cons_self
  · rw [heq]
    exact List.mem_append_right _ (List.mem_singleton_self _)

/-- The body that an entry is given fits, if all its attributes do. -/
theorem MemberInfo.AttributesFit.body_lt {codeName : UInt16} {body : Bytes}
    (h : (entry.setCode codeName body).AttributesFit) : body.length < 0x100000000 :=
  Nat.lt_succ_of_le (h _ (entry.mem_setCode codeName body))

namespace MemberInfo.WrittenAs

/-- **A method that was written back is decoded**, as before or as it was laid out. -/
theorem decode (h : entry.WrittenAs c.pool c'.pool codeName m entry' l)
    (hpool : c.pool.GrowsTo c'.pool) (holds : c'.pool.HoldsText AttributeName.code codeName)
    (hbefore : c.decodeMember owner entry = .ok before)
    (edit : m.modified = true → m.EditOf c.pool before)
    (hend : m.modified = true → entry'.AttributesFit ∧ ¬ l.EndsInWideCondition) (owner' : String) :
    ∃ again, c'.decodeMember owner' entry' = .ok again ∧
      again.ReadAgain c.pool entry before m l := by
  cases hmodified : m.modified with
  | false =>
    rw [h.kept hmodified]
    refine ⟨before, ClassFile.decodeMember_growsTo hpool owner' hbefore, rfl, rfl, rfl,
      fun _ => rfl, fun hm => ?_, fun _ => rfl⟩
    rw [hmodified] at hm
    cases hm
  | true =>
    obtain ⟨p₁, q₁, a, -, -, laid, hof, rfl⟩ := h.written hmodified
    have hedit := edit hmodified
    obtain ⟨first, code, after, hfirst⟩ := exists_firstCode hbefore hedit.hadCode
    by_cases hname : code.name = codeName
    · subst hname
      have read := originIsRead_of_decodeMember hbefore
      obtain ⟨fits, hend⟩ := hend hmodified
      obtain ⟨again, referenced, hagain, hresolved, hoffset⟩ :=
        (hedit.decode hpool read laid hof fits.body_lt _).1 hend
      refine ⟨again, (ClassFile.decodeMember_setCode hpool owner' hfirst hbefore).2 hagain, ?_⟩
      obtain ⟨_, _, _, _, _, _, _, -, -, -, -, -, -, -, rfl⟩ := decodeMethod_eq_ok.1 hagain
      refine ⟨rfl, rfl, rfl, fun hm => ?_, fun _ _ => ⟨hresolved, referenced, hoffset⟩,
        fun lost => ?_⟩
      · rw [hmodified] at hm
        cases hm
      · exact absurd (MemberInfo.codeIsFound_of_name_eq hpool holds hfirst rfl) lost
    · refine ⟨before, ClassFile.decodeMember_setCode_kept hpool owner' holds.text hfirst hname
        hbefore, rfl, rfl, rfl, fun _ => rfl, fun _ found => ?_, fun _ => rfl⟩
      exact absurd (found.name_eq hpool holds hfirst) hname

/-- A method that ends in a wide condition is not decoded. -/
theorem decode_ne_ok (h : entry.WrittenAs c.pool c'.pool codeName m entry' l)
    (hpool : c.pool.GrowsTo c'.pool) (holds : c'.pool.HoldsText AttributeName.code codeName)
    (hbefore : c.decodeMember owner entry = .ok before) (hmodified : m.modified = true)
    (edit : m.EditOf c.pool before) (found : entry.CodeIsFound c.pool)
    (fits : entry'.AttributesFit) (hend : l.EndsInWideCondition) (owner' : String)
    (again : Method) :
    c'.decodeMember owner' entry' ≠ .ok again := by
  obtain ⟨p₁, q₁, a, -, -, laid, hof, rfl⟩ := h.written hmodified
  obtain ⟨first, code, after, hfirst⟩ := exists_firstCode hbefore edit.hadCode
  obtain rfl := found.name_eq hpool holds hfirst
  intro hagain
  have hm := (ClassFile.decodeMember_setCode hpool owner' hfirst hbefore).1 hagain
  exact (edit.decode hpool (originIsRead_of_decodeMember hbefore) laid hof fits.body_lt _).2 hend
    again hm

/-- What a method that was modified is decoded as is decoded from the body that was assembled. -/
theorem exists_decodeMethod (h : entry.WrittenAs c.pool c'.pool codeName m entry' l)
    (hpool : c.pool.GrowsTo c'.pool) (holds : c'.pool.HoldsText AttributeName.code codeName)
    (hbefore : c.decodeMember owner entry = .ok before) (hmodified : m.modified = true)
    (found : entry.CodeIsFound c.pool) (fits : entry'.AttributesFit) {owner' : String}
    {again : Method} (hagain : c'.decodeMember owner' entry' = .ok again) :
    ∃ a blank, LaidOut m c'.pool l ∧ Assembled.IsOf m l c'.pool a ∧
      a.body.length < 0x100000000 ∧ decodeMethod c'.pool blank a.body = .ok again := by
  obtain ⟨p₁, q₁, a, -, -, laid, hof, rfl⟩ := h.written hmodified
  obtain ⟨name, descriptor, -, -, ⟨none, -⟩ | ⟨first, code, after, hfirst, -⟩⟩ :=
    ClassFile.decodeMember_eq_ok.1 hbefore
  · obtain ⟨blank, hm⟩ :=
      ClassFile.decodeMethod_of_noCode (none.growsTo hpool) holds.text hagain
    exact ⟨a, blank, laid, hof, fits.body_lt, hm⟩
  · obtain rfl := found.name_eq hpool holds hfirst
    exact ⟨a, _, laid, hof, fits.body_lt,
      (ClassFile.decodeMember_setCode hpool owner' hfirst hbefore).1 hagain⟩

/-- An entry has as many code attributes as before. -/
theorem codeCount_eq (h : entry.WrittenAs c.pool c'.pool codeName m entry' l)
    (hpool : c.pool.GrowsTo c'.pool) (holds : c'.pool.HoldsText AttributeName.code codeName)
    (hbefore : c.decodeMember owner entry = .ok before)
    (edit : m.modified = true → m.EditOf c.pool before) (found : entry.CodeIsFound c.pool) :
    entry'.codeCount c'.pool = entry.codeCount c.pool := by
  cases hmodified : m.modified with
  | false =>
    rw [h.kept hmodified]
    refine codeCount_kept hpool found ?_
    obtain ⟨_, _, -, -, ⟨none, -⟩ | ⟨first, a, after, hfirst, -⟩⟩ :=
      ClassFile.decodeMember_eq_ok.1 hbefore
    · exact .inl none
    · exact .inr ⟨first, a, after, hfirst⟩
  | true =>
    obtain ⟨p₁, q₁, a, -, -, -, -, rfl⟩ := h.written hmodified
    obtain ⟨first, code, after, hfirst⟩ := exists_firstCode hbefore (edit hmodified).hadCode
    obtain rfl := found.name_eq hpool holds hfirst
    exact hfirst.codeCount_setCode hpool (found first code after hfirst) a.body

end MemberInfo.WrittenAs

end Written

/-! ## 5. Edited classes -/

/-- A method of a class that was written back: its entry, what that was decoded as, the edited
    method, its layout, and the entry that was written. -/
structure EntryEdit where
  entry : MemberInfo
  before : Method
  edited : Method
  layout : Layout
  written : MemberInfo

namespace EntryEdit

/-- Whether a method was decoded, edited as `R` says and written back. -/
structure IsOf (e : EntryEdit) (c c' : ClassFile) (R : Method → Method → Prop) (owner : String)
    (codeName : UInt16) : Prop where
  decoded : c.decodeMember owner e.entry = .ok e.before
  edit : R e.before e.edited
  writtenAs : e.entry.WrittenAs c.pool c'.pool codeName e.edited e.written e.layout

/-- Whether a method is decoded again as what it was laid out as, or as it was before. -/
def ReadAgain (e : EntryEdit) (pool : ConstantPool) (again : Method) : Prop :=
  again.ReadAgain pool e.entry e.before e.edited e.layout

/-- Lists that belong together entry by entry. -/
theorem exists_of_forall₂ {c c' : ClassFile} {R : Method → Method → Prop} {owner : String}
    {codeName : UInt16} {entries written : List MemberInfo} {before edited : List Method}
    (hdecoded : List.Forall₂ (fun entry m => c.decodeMember owner entry = .ok m) entries before)
    (edits : List.Forall₂ R before edited)
    (hwritten : List.Forall₂ (fun (x : MemberInfo × Method) entry' =>
      ∃ l, x.1.WrittenAs c.pool c'.pool codeName x.2 entry' l) (entries.zip edited) written) :
    ∃ es : List EntryEdit, entries = es.map entry ∧ before = es.map EntryEdit.before ∧
      edited = es.map EntryEdit.edited ∧ written = es.map EntryEdit.written ∧
      ∀ e ∈ es, e.IsOf c c' R owner codeName := by
  induction hdecoded generalizing edited written with
  | nil =>
    cases edits
    cases hwritten
    exact ⟨[], rfl, rfl, rfl, rfl, fun e he => (List.not_mem_nil he).elim⟩
  | cons hm _ ih =>
    cases edits with
    | cons hedit hrest =>
      cases hwritten with
      | cons hentry hmore =>
        obtain ⟨l, hl⟩ := hentry
        obtain ⟨es, rfl, rfl, rfl, rfl, hes⟩ := ih hrest hmore
        refine ⟨⟨_, _, _, l, _⟩ :: es, rfl, rfl, rfl, rfl, fun e he => ?_⟩
        rcases List.mem_cons.1 he with rfl | he
        · exact ⟨hm, hedit, hl⟩
        · exact hes e he

end EntryEdit

namespace switchLoop

/-- The pool of a class `A` with a method `f`. -/
def pool : ConstantPool :=
  ((((((empty.push (.utf8 (Modified.encodeText "A"))).push (.classRef 1)).push
    (.utf8 (Modified.encodeText "f"))).push (.utf8 (Modified.encodeText "()V"))).push
    (.utf8 (Modified.encodeText AttributeName.code))).push
    (.utf8 (Modified.encodeText "java/lang/Object"))).push (.classRef 6)

/-- The code attribute of a method that returns at once. -/
def body : Bytes :=
  [0, 0, 0, 0, 0, 0, 0, 1, 0xb1, 0, 0, 0, 0]

/-- The entry of that method. -/
def entry : MemberInfo :=
  ⟨staticFlag, 3, 4, [⟨5, body⟩]⟩

/-- The class with that method. -/
def classFile : ClassFile where
  minorVersion := 0
  majorVersion := 52
  pool
  flags := 0x21
  thisClass := 2
  superClass := 7
  interfaces := []
  fields := []
  methods := [entry]
  attributes := []

/-- The code that was read. -/
def origin : CodeOrigin where
  maxStack := 0
  maxLocals := 0
  codeLength := 1
  labelOffsets := []
  attributes := []

/-- The method that was read. -/
def readMethod : Method where
  name := "f"
  descriptor := "()V"
  flags := staticFlag
  nodes := #[.insn (.simple 0xb1)]
  origin := some origin

/-- The class with a loop in place of the method's code. -/
def edited (n : Nat) : ClassBody where
  name := "A"
  superName := some "java/lang/Object"
  methods := [switchLoop n (some origin)]

theorem wellFormed_pool : pool.WellFormed :=
  ((((((WellFormed.empty.push (by decide) (by decide)).push (by decide) (by decide)).push
    (by decide) (by decide)).push (by decide) (by decide)).push (by decide) (by decide)).push
    (by decide) (by decide)).push (by decide) (by decide)

theorem read_classFile : ∃ data, ClassFile.read data = .ok classFile := by
  obtain ⟨data, hdata, small⟩ : ∃ data, classFile.bytes = .ok data ∧
      data.length < Reader.positionLimit := ⟨_, rfl, by decide⟩
  exact ⟨data, ClassFile.read_bytes wellFormed_pool (Nat.zero_le _) hdata small⟩

theorem scanCode_eq : scanCode #[0xb1] = .ok ⟨#[0], #[]⟩ := by
  unfold scanCode
  rw [scanFrom, if_pos (by decide)]
  refine bind_eq_ok.2 ⟨1, rfl, ?_⟩
  simp only
  rw [dif_neg (by decide)]
  refine bind_eq_ok.2 ⟨_, rfl, ?_⟩
  rw [scanFrom, if_neg (by decide)]
  rfl

theorem decodeMethod_eq (pool : ConstantPool) :
    decodeMethod pool { name := "f", descriptor := "()V", flags := staticFlag } body =
      .ok readMethod := by
  refine decodeMethod_eq_ok.2 ⟨{ maxStack := 0, maxLocals := 0, code := #[0xb1], handlers := [] },
    ⟨#[0], #[]⟩, [], [[.insn (.simple 0xb1)]], [], [], [], rfl, scanCode_eq, ?_, ?_, rfl, rfl, rfl,
    ?_⟩
  · exact labelledOffsets_eq_ok.2 ⟨nofun, rfl⟩
  · exact mapM_eq_ok.2 (.cons (nodesAt_of_decodeInsn List.nodup_nil rfl) .nil)
  · rw [at?_numberLabels List.nodup_nil]
    rfl

theorem firstCode : FirstCode classFile.pool entry.attributes [] ⟨5, body⟩ [] :=
  ⟨rfl, fun _ h => (List.not_mem_nil h).elim, text_of_get rfl⟩

theorem decodeMember_entry : classFile.decodeMember "A" entry = .ok readMethod :=
  (ClassFile.decodeMember_of_first firstCode).2
    ⟨"f", "()V", text_of_get rfl, text_of_get rfl, decodeMethod_eq pool⟩

theorem decode_classFile : classFile.decode =
    .ok { name := "A", superName := some "java/lang/Object", methods := [readMethod] } := by
  have hname : pool.className 2 = .ok "A" := bind_eq_ok.2 ⟨.classRef 1, rfl, text_of_get rfl⟩
  have hsuper : pool.className 7 = .ok "java/lang/Object" :=
    bind_eq_ok.2 ⟨.classRef 6, rfl, text_of_get rfl⟩
  exact bind_eq_ok.2 ⟨"A", during_eq_ok.2 hname,
    bind_eq_ok.2 ⟨[readMethod], mapM_eq_ok.2 (.cons decodeMember_entry .nil),
      bind_eq_ok.2 ⟨some "java/lang/Object", during_eq_ok.2 (map_eq_ok.2 ⟨_, hsuper, rfl⟩), rfl⟩⟩⟩

theorem isFirstSlot_code :
    pool.IsFirstSlot (.utf8 (Modified.encodeText AttributeName.code)) 5 :=
  ⟨rfl, by decide +kernel⟩

theorem codeIsFound : entry.CodeIsFound pool := by
  intro before a after first
  rw [firstCode.unique first]
  exact isFirstSlot_code

variable (n : Nat)

theorem editOf (p : ConstantPool) : (switchLoop n (some origin)).EditOf p readMethod where
  hadCode := rfl
  origin := rfl
  form := opcodeFits n _
  agrees := agrees n _ _
  land := land n _
  fits := tablesFit n _

theorem edits : List.Forall₂ (fun m₀ m => m.modified = true → m.EditOf pool m₀) [readMethod]
    (edited n).methods :=
  .cons (fun _ => editOf n pool) .nil

theorem bare : ∀ o, some origin = some o → o.attributes = [] := by
  intro o ho
  cases ho
  rfl

theorem apply_eq {wide : Bool} {jump : Bytes}
    (hwiden : widenAll positions (switchPieces n false) = switchPieces n wide)
    (hjump : encodeJump Opcode.ifeq wide (-(switchLength n : Int)) = .ok jump)
    (small : switchLength n + jumpLength Opcode.ifeq wide ≤ maxCodeLength) (few : n < 0x100000000) :
    ∃ body : Bytes, body.length < 0x100000000 ∧ classFile.apply (edited n) #[] =
      (.ok ({ classFile with methods := [entry.setCode 5 body] }, []), #[]) := by
  obtain ⟨a, hdropped, ha, -, hlength⟩ :=
    assemble_eq n (some origin) pool #[] bare hwiden hjump small
  have hname : internText AttributeName.code pool = (.ok 5, pool) :=
    intern_of_isFirstSlot wellFormed_pool isFirstSlot_code
  exact ⟨a.body, hlength few, ClassFile.apply_of_assemble rfl rfl hname rfl ha hdropped⟩

end switchLoop

namespace secondName

/-- The pool of the class with a second constant for the name `Code`. -/
def pool : ConstantPool :=
  switchLoop.pool.push (.utf8 (Modified.encodeText AttributeName.code))

/-- The entry of the method, whose code attribute has the second name, with others behind it. -/
def entry (others : List RawAttribute) : MemberInfo :=
  { switchLoop.entry with attributes := ⟨8, switchLoop.body⟩ :: others }

def classFile (others : List RawAttribute) : ClassFile :=
  { switchLoop.classFile with pool, methods := [entry others] }

theorem wellFormed_pool : pool.WellFormed :=
  switchLoop.wellFormed_pool.push (by decide) (by decide)

theorem read_classFile : ∃ data, ClassFile.read data = .ok (classFile []) := by
  obtain ⟨data, hdata, small⟩ : ∃ data, (classFile []).bytes = .ok data ∧
      data.length < Reader.positionLimit := ⟨_, rfl, by decide⟩
  exact ⟨data, ClassFile.read_bytes wellFormed_pool (Nat.zero_le _) hdata small⟩

/-- The class is decoded as it was read, whatever comes behind its first code attribute. -/
theorem decode_eq (others : List RawAttribute) : (classFile others).decode =
    .ok { name := "A", superName := some "java/lang/Object"
          methods := [switchLoop.readMethod] } := by
  have hname : pool.className 2 = .ok "A" := bind_eq_ok.2 ⟨.classRef 1, rfl, text_of_get rfl⟩
  have hsuper : pool.className 7 = .ok "java/lang/Object" :=
    bind_eq_ok.2 ⟨.classRef 6, rfl, text_of_get rfl⟩
  have first : FirstCode (classFile others).pool (entry others).attributes []
      ⟨8, switchLoop.body⟩ others :=
    ⟨rfl, fun _ h => (List.not_mem_nil h).elim, text_of_get rfl⟩
  have hmember : (classFile others).decodeMember "A" (entry others) = .ok switchLoop.readMethod :=
    (ClassFile.decodeMember_of_first first).2
      ⟨"f", "()V", text_of_get rfl, text_of_get rfl, switchLoop.decodeMethod_eq pool⟩
  exact bind_eq_ok.2 ⟨"A", during_eq_ok.2 hname,
    bind_eq_ok.2 ⟨[switchLoop.readMethod], mapM_eq_ok.2 (.cons hmember .nil),
      bind_eq_ok.2 ⟨some "java/lang/Object", during_eq_ok.2 (map_eq_ok.2 ⟨_, hsuper, rfl⟩), rfl⟩⟩⟩

theorem isFirstSlot_code :
    pool.IsFirstSlot (.utf8 (Modified.encodeText AttributeName.code)) 5 :=
  ⟨rfl, by decide +kernel⟩

end secondName

/-- A class whose code attribute has the second of two names is written back with a second code
    attribute behind the first one, and so it is decoded as it was read. -/
theorem ClassFile.apply_secondName : ∃ data before c',
    ClassFile.read data = .ok (secondName.classFile []) ∧
      (secondName.classFile []).decode = .ok before ∧
      List.Forall₂ (fun m₀ m => m.modified = true ∧ m.EditOf (secondName.classFile []).pool m₀)
        before.methods (switchLoop.edited 1).methods ∧
      (secondName.classFile []).apply (switchLoop.edited 1) #[] = (.ok (c', []), #[]) ∧
      c'.decode = .ok before ∧
      (secondName.classFile []).methods.map
        (MemberInfo.codeCount (secondName.classFile []).pool) = [1] ∧
      c'.methods.map (MemberInfo.codeCount c'.pool) = [2] := by
  obtain ⟨data, hdata⟩ := secondName.read_classFile
  obtain ⟨a, hdropped, ha, -⟩ := switchLoop.assemble_eq 1 (some switchLoop.origin)
    secondName.pool #[] switchLoop.bare (switchLoop.widenAll_near 1 rfl) rfl (by decide)
  have hname : internText AttributeName.code secondName.pool = (.ok 5, secondName.pool) :=
    intern_of_isFirstSlot secondName.wellFormed_pool secondName.isFirstSlot_code
  have hfirst : RawAttribute.isCode secondName.pool ⟨8, switchLoop.body⟩ = true :=
    RawAttribute.isCode_iff.2 (text_of_get rfl)
  have hsecond : RawAttribute.isCode secondName.pool ⟨5, a.body⟩ = true :=
    RawAttribute.isCode_iff.2 (text_of_get rfl)
  have happly : (secondName.classFile []).apply (switchLoop.edited 1) #[] = _ :=
    ClassFile.apply_of_assemble rfl rfl hname rfl ha hdropped
  refine ⟨data, _, _, hdata, secondName.decode_eq [], .cons ⟨rfl, switchLoop.editOf 1 _⟩ .nil,
    happly, secondName.decode_eq [⟨5, a.body⟩], ?_, ?_⟩
  · show [[_].countP (RawAttribute.isCode secondName.pool)] = _
    rw [List.countP_cons_of_pos hfirst]
    rfl
  · show [[_, _].countP (RawAttribute.isCode secondName.pool)] = _
    rw [List.countP_cons_of_pos hfirst, List.countP_cons_of_pos hsecond]
    rfl

end Rewire
