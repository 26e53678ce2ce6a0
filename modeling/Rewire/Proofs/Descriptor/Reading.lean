import Rewire.Proofs.Bytes.Fit
import Rewire.Proofs.Descriptor.Scanner

/-!
# Reading descriptors

Of the reader of descriptors only what is known of it is used here (`DescriptorReader.ReadsBy`): it
reads one type after the other. This file shows

* that method types (`ReadsBy.methodType_eq_ok`) and descriptors (`Descriptor.parse_eq_ok`) are read
  exactly where they are spelled, whatever follows;
* that every method type is read back from its spelling, and that its arguments are counted right
  (`Descriptor.parse_spelling`);
* that a text begins with one method type at most (`MethodTypeDescriptor.eq_of_spelling_append`);
* that a text is read if it is a method descriptor or slips through (`SlipsThrough`), and not
  otherwise (`Descriptor.parse_isOk_iff`).
-/

namespace Rewire

/-! ## 1. Method types -/

namespace MethodTypeDescriptor

/-- The types that a method type is made of. -/
def parts (t : MethodTypeDescriptor) : List TypeDescriptor :=
  t.parameters ++ [t.result]

/-- The text that a method type is read from. -/
def spelling (t : MethodTypeDescriptor) : List Char :=
  '(' :: t.parameters.flatMap TypeDescriptor.spelling ++ ')' :: t.result.spelling

/-- How the arguments and the result travel. -/
def categories (t : MethodTypeDescriptor) : Descriptor where
  arguments := t.parameters.map Category.of
  result := Category.of t.result

/-- Whether a method type can be read: each type can, and each parameter has a value. -/
def IsReadable (t : MethodTypeDescriptor) : Prop :=
  (∀ part ∈ t.parts, part.IsReadable) ∧ .void ∉ t.parameters

instance : DecidablePred IsReadable := fun t =>
  inferInstanceAs (Decidable ((∀ part ∈ t.parts, part.IsReadable) ∧ .void ∉ t.parameters))

end MethodTypeDescriptor

theorem Category.of_eq_void {t : TypeDescriptor} : Category.of t = .void ↔ t = .void := by
  cases t <;> simp [Category.of]

section Readers

open DescriptorReader (ReadsTypes)

variable [DescriptorReader] {next : List Char → Outcome TypeToken}

namespace DescriptorReader.ReadsBy

variable (reads : DescriptorReader.ReadsBy next)

include reads

/-- **Types are read exactly where they are spelled**, up to a closing parenthesis. -/
theorem readsTypes_iff {cs rest : List Char} {ts : List TypeDescriptor} :
    ReadsTypes next cs ts rest ↔
      (∀ t ∈ ts, t.IsReadable) ∧ cs = ts.flatMap TypeDescriptor.spelling ++ ')' :: rest := by
  constructor
  · intro h
    induction h with
    | close done => exact ⟨List.forall_mem_nil _, (reads.close _ _).1 done⟩
    | type first _ ih =>
      obtain ⟨readable, rfl⟩ := (reads.type _ _ _).1 first
      obtain ⟨hts, rfl⟩ := ih
      exact ⟨List.forall_mem_cons.2 ⟨readable, hts⟩, by rw [List.flatMap_cons, List.append_assoc]⟩
  · rintro ⟨hts, rfl⟩
    induction ts with
    | nil => exact .close ((reads.close _ _).2 rfl)
    | cons t ts ih =>
      obtain ⟨readable, hts⟩ := List.forall_mem_cons.1 hts
      rw [List.flatMap_cons, List.append_assoc]
      exact .type ((reads.type _ _ _).2 ⟨readable, rfl⟩) (ih hts)

/-- A method type is read exactly where it is spelled. -/
theorem methodType_eq_ok {text : String} {t : MethodTypeDescriptor} :
    DescriptorReader.methodType text = .ok t ↔ (∀ part ∈ t.parts, part.IsReadable) ∧
      ∃ rest, text.toList = t.spelling ++ rest := by
  rw [reads.method]
  constructor
  · rintro ⟨cs, afterClose, rest, htext, hparameters, hresult⟩
    obtain ⟨hts, rfl⟩ := reads.readsTypes_iff.1 hparameters
    obtain ⟨readable, rfl⟩ := (reads.type _ _ _).1 hresult
    refine ⟨List.forall_mem_append.2 ⟨hts, List.forall_mem_singleton.2 readable⟩, rest, ?_⟩
    rw [htext]
    simp [MethodTypeDescriptor.spelling]
  · rintro ⟨readable, rest, htext⟩
    obtain ⟨hts, hresult⟩ := List.forall_mem_append.1 readable
    refine ⟨_, t.result.spelling ++ rest, rest, ?_, reads.readsTypes_iff.2 ⟨hts, rfl⟩,
      (reads.type _ _ _).2 ⟨hresult _ List.mem_cons_self, rfl⟩⟩
    rw [htext]
    simp [MethodTypeDescriptor.spelling]

end DescriptorReader.ReadsBy

/-- **A descriptor is read exactly where a method type is spelled**; what follows is not looked at. -/
theorem Descriptor.parse_eq_ok (reads : DescriptorReader.ReadsBy next) {text : String}
    {d : Descriptor} :
    Descriptor.parse text = .ok d ↔ ∃ (t : MethodTypeDescriptor) (rest : List Char),
      t.IsReadable ∧ text.toList = t.spelling ++ rest ∧ d = t.categories := by
  have hvoid : ∀ t : MethodTypeDescriptor, Category.void ∈ t.categories.arguments ↔
      .void ∈ t.parameters := by
    intro t
    simp [MethodTypeDescriptor.categories, Category.of_eq_void]
  constructor
  · intro h
    obtain ⟨t, ht, h⟩ := bind_eq_ok.1 h
    obtain ⟨readable, rest, htext⟩ := reads.methodType_eq_ok.1 (during_eq_ok.1 ht)
    dsimp only at h
    split at h
    · cases h
    · rename_i hvalues
      cases h
      exact ⟨t, rest, ⟨readable, fun hmem => hvalues ((hvoid t).2 hmem)⟩, htext, rfl⟩
  · rintro ⟨t, rest, ⟨readable, hvalues⟩, htext, rfl⟩
    refine bind_eq_ok.2 ⟨t, ?_, ?_⟩
    · exact during_eq_ok.2 (reads.methodType_eq_ok.2 ⟨readable, rest, htext⟩)
    · exact if_neg fun hmem => hvalues ((hvoid t).1 hmem)

end Readers

/-! ## 2. Types of the format -/

namespace PrimitiveType

/-- The type as it is read. -/
def descriptor : PrimitiveType → TypeDescriptor
  | boolean => .boolean
  | byte => .byte
  | char => .char
  | short => .short
  | int => .integer
  | long => .long
  | float => .float
  | double => .double

end PrimitiveType

namespace TypeDescriptor

/-- The type with one dimension more. -/
def deepen : TypeDescriptor → TypeDescriptor
  | array dimensions element => .array (dimensions + 1) element
  | t => .array 1 t

theorem spelling_deepen (t : TypeDescriptor) : t.deepen.spelling = '[' :: t.spelling := by
  cases t <;> rfl

theorem of_deepen (t : TypeDescriptor) : Category.of t.deepen = .reference := by
  cases t <;> rfl

end TypeDescriptor

namespace FieldType

/-- The type as it is read. -/
def descriptor : FieldType → TypeDescriptor
  | primitive type => type.descriptor
  | object className => .object className
  | array element => element.descriptor.deepen

theorem spelling_descriptor (t : FieldType) : t.descriptor.spelling = t.spelling := by
  induction t with
  | primitive type => cases type <;> rfl
  | object => rfl
  | array element ih => rw [descriptor, TypeDescriptor.spelling_deepen, ih, spelling]

theorem of_descriptor (t : FieldType) : Category.of t.descriptor = t.category := by
  cases t with
  | primitive type => cases type <;> rfl
  | object => rfl
  | array element => exact TypeDescriptor.of_deepen _

theorem descriptor_ne_void (t : FieldType) : t.descriptor ≠ .void := by
  rw [ne_eq, ← Category.of_eq_void, of_descriptor]
  cases t with
  | primitive type => cases type <;> decide
  | _ => exact nofun

/-- An array is read with as many dimensions as it has. -/
theorem exists_array_descriptor (t : FieldType) :
    ∃ element, t.array.descriptor = .array (t.dimensions + 1) element ∧ element.isArray = false := by
  induction t with
  | primitive type => exact ⟨type.descriptor, by cases type <;> exact ⟨rfl, rfl⟩⟩
  | object name => exact ⟨.object name, rfl, rfl⟩
  | array element ih =>
    obtain ⟨e, he, simple⟩ := ih
    refine ⟨e, ?_, simple⟩
    show element.array.descriptor.deepen = _
    rw [he]
    rfl

theorem isReadable_descriptor {t : FieldType} (readable : t.IsReadable) :
    t.descriptor.IsReadable := by
  induction t with
  | primitive type => cases type <;> trivial
  | object name => exact readable.2 name rfl
  | array element ih =>
    have helement : element.descriptor.IsReadable :=
      ih ⟨Nat.le_of_succ_le readable.1, readable.2⟩
    obtain ⟨e, he, simple⟩ := element.exists_array_descriptor
    rw [he]
    refine ⟨⟨Nat.succ_pos _, readable.1⟩, simple, ?_⟩
    -- what the array holds is the element, or what the element holds
    cases hd : element.descriptor with
    | array n e' =>
      have heq : element.descriptor.deepen = .array (element.dimensions + 1) e := he
      rw [hd] at heq helement
      obtain ⟨-, rfl⟩ := TypeDescriptor.array.inj heq
      exact helement.2.2
    | _ =>
      have heq : element.descriptor.deepen = .array (element.dimensions + 1) e := he
      rw [hd] at heq helement
      obtain ⟨-, rfl⟩ := TypeDescriptor.array.inj heq
      exact helement

theorem width_category (t : FieldType) : t.category.width = t.words := by
  cases t with
  | primitive type => cases type <;> rfl
  | _ => rfl

end FieldType

namespace MethodType

variable (t : MethodType)

/-- The method type as it is read. -/
def descriptor : MethodTypeDescriptor where
  parameters := t.parameters.map FieldType.descriptor
  result := (t.result.map FieldType.descriptor).getD .void

theorem spelling_descriptor : t.descriptor.spelling = t.spelling := by
  obtain ⟨parameters, result⟩ := t
  have hparameters : (parameters.map FieldType.descriptor).flatMap TypeDescriptor.spelling =
      parameters.flatMap FieldType.spelling := by
    simp [List.flatMap_map, FieldType.spelling_descriptor]
  simp only [descriptor, MethodTypeDescriptor.spelling, spelling, hparameters]
  cases result with
  | none => rfl
  | some result => rw [Option.map_some, Option.getD_some, result.spelling_descriptor, resultSpelling]

theorem categories_descriptor : t.descriptor.categories = t.categories := by
  obtain ⟨parameters, result⟩ := t
  have hparameters : (parameters.map FieldType.descriptor).map Category.of =
      parameters.map FieldType.category := by
    simp [FieldType.of_descriptor]
  simp only [descriptor, MethodTypeDescriptor.categories, categories, hparameters]
  cases result with
  | none => rfl
  | some result => rw [Option.map_some, Option.getD_some, result.of_descriptor]; rfl

/-- The types of a method type are those of its fields, but for the absence of a result. -/
theorem forall_parts_descriptor {P : TypeDescriptor → Prop} (hvoid : P .void)
    (h : ∀ part ∈ t.parts, P part.descriptor) : ∀ part ∈ t.descriptor.parts, P part := by
  obtain ⟨parameters, result⟩ := t
  obtain ⟨hparameters, hresult⟩ := List.forall_mem_append.1 h
  refine List.forall_mem_append.2 ⟨?_, List.forall_mem_singleton.2 ?_⟩
  · exact List.forall_mem_map.2 hparameters
  · cases result with
    | none => exact hvoid
    | some result => exact hresult result List.mem_cons_self

theorem isReadable_descriptor (readable : ∀ part ∈ t.parts, part.IsReadable) :
    t.descriptor.IsReadable := by
  refine ⟨t.forall_parts_descriptor trivial fun part hpart =>
    FieldType.isReadable_descriptor (readable part hpart), fun hmem => ?_⟩
  obtain ⟨part, -, heq⟩ := List.mem_map.1 hmem
  exact part.descriptor_ne_void heq

end MethodType

/-! ## 3. Counting words -/

/-- Stack words the arguments take, a receiver not counted, in numbers. -/
def Descriptor.argumentWords (d : Descriptor) : Nat :=
  (d.arguments.map Category.width).sum

theorem MethodType.argumentWords_categories (t : MethodType) :
    t.categories.argumentWords = (t.parameters.map FieldType.words).sum := by
  simp [categories, Descriptor.argumentWords, Function.comp_def, FieldType.width_category]

theorem foldlM_addWord16_eq_ok {cs : List Category} {n w : UInt16} :
    cs.foldlM (fun n c => addWord16 n (UInt16.ofNat c.width)) n = .ok w ↔
      w.toNat = n.toNat + (cs.map Category.width).sum := by
  induction cs generalizing n with
  | nil =>
    rw [List.foldlM_nil, pure_eq_ok, List.map_nil, List.sum_nil, Nat.add_zero,
      ← UInt16.toNat_inj, eq_comm]
  | cons c cs ih =>
    have hwidth : (UInt16.ofNat c.width).toNat = c.width :=
      UInt16.toNat_ofNat_of_lt' (Nat.lt_of_le_of_lt c.width_le_two (by decide))
    simp only [List.foldlM_cons, bind_eq_ok, addWord16_eq_ok, ih, List.map_cons, List.sum_cons,
      hwidth]
    constructor
    · rintro ⟨m, hm, hw⟩
      omega
    · intro hw
      have hlt := w.toNat_lt
      exact ⟨UInt16.ofNat (n.toNat + c.width), by rw [UInt16.toNat_ofNat']; omega,
        by rw [UInt16.toNat_ofNat']; omega⟩

/-- **The words of the arguments are counted right** as long as their number is a 16-bit word. -/
theorem Descriptor.argumentWidth_eq_ok {d : Descriptor} {w : UInt16} :
    d.argumentWidth = .ok w ↔ w.toNat = d.argumentWords := by
  rw [argumentWidth, foldlM_addWord16_eq_ok, argumentWords]
  simp

theorem Descriptor.exists_argumentWidth {d : Descriptor} (few : d.argumentWords ≤ 0xffff) :
    ∃ w, d.argumentWidth = .ok w ∧ w.toNat = d.argumentWords := by
  have hw : (UInt16.ofNat d.argumentWords).toNat = d.argumentWords :=
    UInt16.toNat_ofNat_of_lt' (Nat.lt_succ_of_le few)
  exact ⟨_, Descriptor.argumentWidth_eq_ok.2 hw, hw⟩

/-- **Every method type is read back from its spelling**: the arguments in order and the result, each
    by its category, and the arguments take the stack words of their types, if these are not too many
    for a 16-bit word. -/
theorem Descriptor.parse_spelling [DescriptorReader] {next : List Char → Outcome TypeToken}
    (reads : DescriptorReader.ReadsBy next) (t : MethodType)
    (readable : ∀ part ∈ t.parts, part.IsReadable) :
    Descriptor.parse (String.ofList t.spelling) = .ok t.categories ∧
      ((t.parameters.map FieldType.words).sum ≤ 0xffff → ∃ w,
        t.categories.argumentWidth = .ok w ∧ w.toNat = (t.parameters.map FieldType.words).sum) := by
  refine ⟨(Descriptor.parse_eq_ok reads).2 ⟨t.descriptor, [], t.isReadable_descriptor readable, ?_,
    t.categories_descriptor.symm⟩, ?_⟩
  · rw [String.toList_ofList, t.spelling_descriptor, List.append_nil]
  · rw [← t.argumentWords_categories]
    exact Descriptor.exists_argumentWidth

/-- A method type with a class that is named like a row of other types, and an array of longs, which
    takes one word. -/
def MethodType.nestedNames : MethodType where
  parameters := [.primitive .byte, .object "VIJ)[".toList, .array (.array (.primitive .long)),
    .primitive .double]
  result := some (.array (.primitive .boolean))

/-- The scanner reads the categories, and the arguments take five words. -/
theorem Descriptor.parse_spelling_nestedNames : DescriptorReader.ReadsBy Scanner.readType ∧
    (∀ part ∈ MethodType.nestedNames.parts, part.IsReadable) ∧
      Descriptor.parse "(BLVIJ)[;[[JD)[Z" =
        .ok ⟨[.int, .reference, .reference, .double], .reference⟩ ∧
      (MethodType.nestedNames.parameters.map FieldType.words).sum ≤ 0xffff ∧
      ∃ w, MethodType.nestedNames.categories.argumentWidth = .ok w ∧ w.toNat = 5 := by
  have readable : ∀ part ∈ MethodType.nestedNames.parts, part.IsReadable := by decide
  have few : (MethodType.nestedNames.parameters.map FieldType.words).sum ≤ 0xffff := by decide
  obtain ⟨hparse, hwidth⟩ := Descriptor.parse_spelling Scanner.readsBy .nestedNames readable
  exact ⟨Scanner.readsBy, readable, hparse, few, hwidth few⟩

/-! ## 4. A text is spelled in one way -/

/-- Parameters that are spelled at the front of one text are the same. -/
theorem TypeDescriptor.eq_of_flatMap_spelling {ts ts' : List TypeDescriptor} {rest rest' : List Char}
    (hts : ∀ t ∈ ts, t.IsReadable) (hts' : ∀ t ∈ ts', t.IsReadable)
    (h : ts.flatMap spelling ++ ')' :: rest = ts'.flatMap spelling ++ ')' :: rest') :
    ts = ts' ∧ rest = rest' := by
  induction ts generalizing ts' with
  | nil =>
    cases ts' with
    | nil => exact ⟨rfl, (List.cons.inj h).2⟩
    | cons t' ts' =>
      rw [List.flatMap_cons, List.append_assoc] at h
      exact absurd h (spelling_ne_close (hts' t' List.mem_cons_self))
  | cons t ts ih =>
    obtain ⟨readable, hts⟩ := List.forall_mem_cons.1 hts
    cases ts' with
    | nil =>
      rw [List.flatMap_cons, List.append_assoc] at h
      exact absurd h.symm (spelling_ne_close readable)
    | cons t' ts' =>
      obtain ⟨readable', hrest'⟩ := List.forall_mem_cons.1 hts'
      simp only [List.flatMap_cons, List.append_assoc] at h
      obtain ⟨rfl, hafter⟩ := eq_of_spelling_append readable readable' h
      obtain ⟨rfl, rfl⟩ := ih hts hrest' hafter
      exact ⟨rfl, rfl⟩

/-- **A text begins with one method type at most.** -/
theorem MethodTypeDescriptor.eq_of_spelling_append {t t' : MethodTypeDescriptor}
    {rest rest' : List Char} (readable : ∀ part ∈ t.parts, part.IsReadable)
    (readable' : ∀ part ∈ t'.parts, part.IsReadable)
    (h : t.spelling ++ rest = t'.spelling ++ rest') : t = t' ∧ rest = rest' := by
  obtain ⟨hts, hresult⟩ := List.forall_mem_append.1 readable
  obtain ⟨hts', hresult'⟩ := List.forall_mem_append.1 readable'
  simp only [spelling, List.cons_append, List.append_assoc, List.cons.injEq, true_and] at h
  obtain ⟨hparameters, h⟩ := TypeDescriptor.eq_of_flatMap_spelling hts hts' h
  obtain ⟨hres, rfl⟩ := TypeDescriptor.eq_of_spelling_append (hresult _ List.mem_cons_self)
    (hresult' _ List.mem_cons_self) h
  obtain ⟨parameters, result⟩ := t
  obtain ⟨parameters', result'⟩ := t'
  cases hparameters
  cases hres
  exact ⟨rfl, rfl⟩

/-! ## 5. Texts that slip through -/

/-- Whether a type that is read is none of the format: an array of no values, or a class without a
    name, also in an array. -/
def TypeDescriptor.IsFaulty : TypeDescriptor → Prop
  | object className => className = []
  | array _ element => element = void ∨ element.IsFaulty
  | _ => False

/-- Whether a text begins like a method descriptor and has something in it that is not looked at: text
    after the result, an array of no values, or a class without a name. -/
def SlipsThrough (text : String) : Prop :=
  ∃ (t : MethodTypeDescriptor) (rest : List Char), t.IsReadable ∧
    text.toList = t.spelling ++ rest ∧ (rest ≠ [] ∨ ∃ part ∈ t.parts, part.IsFaulty)

namespace FieldType

/-- The type with a number of dimensions more. -/
def nested (t : FieldType) : Nat → FieldType
  | 0 => t
  | n + 1 => (t.nested n).array

theorem descriptor_nested {t : FieldType} (simple : t.descriptor.isArray = false) (n : Nat) :
    (t.nested (n + 1)).descriptor = .array (n + 1) t.descriptor := by
  induction n with
  | zero =>
    show t.descriptor.deepen = _
    cases hd : t.descriptor with
    | array => rw [hd] at simple; cases simple
    | _ => rfl
  | succ n ih =>
    show (t.nested (n + 1)).descriptor.deepen = _
    rw [ih]
    rfl

theorem dimensions_nested (t : FieldType) (n : Nat) :
    (t.nested n).dimensions = t.dimensions + n := by
  induction n with
  | zero => rfl
  | succ n ih =>
    show (t.nested n).dimensions + 1 = _
    rw [ih, Nat.add_assoc]

theorem className?_nested (t : FieldType) (n : Nat) : (t.nested n).className? = t.className? := by
  induction n with
  | zero => rfl
  | succ n ih => exact ih

/-- A field type that is valid is read as a type without fault. -/
theorem not_isFaulty_descriptor {t : FieldType} (valid : ∀ name ∈ t.className?, name ≠ []) :
    ¬ t.descriptor.IsFaulty := by
  induction t with
  | primitive type => cases type <;> exact id
  | object name => exact valid name rfl
  | array element ih =>
    have helement := ih valid
    show ¬ element.descriptor.deepen.IsFaulty
    cases hd : element.descriptor with
    | void => exact absurd hd element.descriptor_ne_void
    | array n e =>
      rw [hd] at helement
      exact helement
    | _ =>
      rw [hd] at helement
      rintro (h | h)
      · cases h
      · exact helement h

end FieldType

namespace TypeDescriptor

/-- A type without dimensions that is read and has no fault is a valid field type, or the absence of
    a value. -/
theorem valid_or_void_of_simple {t : TypeDescriptor} (simple : t.isArray = false)
    (readable : t.IsReadable) (sound : ¬ t.IsFaulty) :
    (∃ type : FieldType, type.dimensions = 0 ∧ type.IsValid ∧ t = type.descriptor) ∨ t = void := by
  have hprimitive : ∀ p : PrimitiveType, ∃ type : FieldType, type.dimensions = 0 ∧ type.IsValid ∧
      p.descriptor = type.descriptor :=
    fun p => ⟨.primitive p, rfl, ⟨⟨Nat.zero_le _, nofun⟩, nofun⟩, rfl⟩
  cases t with
  | array => cases simple
  | void => exact .inr rfl
  | object name =>
    refine .inl ⟨.object name, rfl, ⟨⟨Nat.zero_le _, ?_⟩, ?_⟩, rfl⟩
    · rintro _ ⟨⟩
      exact readable
    · rintro _ ⟨⟩
      exact sound
  | boolean => exact .inl (hprimitive .boolean)
  | byte => exact .inl (hprimitive .byte)
  | char => exact .inl (hprimitive .char)
  | short => exact .inl (hprimitive .short)
  | integer => exact .inl (hprimitive .int)
  | long => exact .inl (hprimitive .long)
  | float => exact .inl (hprimitive .float)
  | double => exact .inl (hprimitive .double)

/-- **A type that is read and has no fault** is a valid field type, or the absence of a value. -/
theorem valid_or_void {t : TypeDescriptor} (readable : t.IsReadable) (sound : ¬ t.IsFaulty) :
    (∃ type : FieldType, type.IsValid ∧ t = type.descriptor) ∨ t = void := by
  by_cases simple : t.isArray = false
  · exact (valid_or_void_of_simple simple readable sound).imp_left
      fun ⟨type, _, hvalid, heq⟩ => ⟨type, hvalid, heq⟩
  cases t with
  | array n element =>
    obtain ⟨⟨hpos, hdims⟩, hsimple, helement⟩ := readable
    obtain ⟨k, rfl⟩ := Nat.exists_eq_succ_of_ne_zero hpos.ne'
    obtain ⟨hvoid, hsound⟩ := not_or.1 sound
    obtain ⟨type, hflat, ⟨⟨-, hname⟩, hnonempty⟩, rfl⟩ | rfl :=
      valid_or_void_of_simple hsimple helement hsound
    · refine .inl ⟨type.nested (k + 1), ⟨⟨?_, ?_⟩, ?_⟩, ?_⟩
      · rw [type.dimensions_nested]
        omega
      · rwa [type.className?_nested]
      · rwa [type.className?_nested]
      · rw [type.descriptor_nested hsimple]
    · exact absurd rfl hvoid
  | _ => exact absurd rfl simple

end TypeDescriptor

/-- Types that are valid field types, one by one, are a list of them. -/
theorem FieldType.exists_map_descriptor {ts : List TypeDescriptor}
    (h : ∀ t ∈ ts, ∃ type : FieldType, type.IsValid ∧ t = type.descriptor) :
    ∃ types : List FieldType, (∀ type ∈ types, type.IsValid) ∧
      types.map FieldType.descriptor = ts := by
  induction ts with
  | nil => exact ⟨[], List.forall_mem_nil _, rfl⟩
  | cons t ts ih =>
    obtain ⟨⟨type, hvalid, rfl⟩, hts⟩ := List.forall_mem_cons.1 h
    obtain ⟨types, htypes, rfl⟩ := ih hts
    exact ⟨type :: types, List.forall_mem_cons.2 ⟨hvalid, htypes⟩, rfl⟩

/-- **Method descriptors** are the spellings of readable method types without a fault. -/
theorem isMethodDescriptor_iff {text : String} :
    IsMethodDescriptor text ↔ ∃ t : MethodTypeDescriptor, t.IsReadable ∧ text.toList = t.spelling ∧
      ∀ part ∈ t.parts, ¬ part.IsFaulty := by
  constructor
  · rintro ⟨t, valid, htext⟩
    refine ⟨t.descriptor, t.isReadable_descriptor fun part hpart => (valid part hpart).1, ?_, ?_⟩
    · rw [t.spelling_descriptor, htext]
    · exact t.forall_parts_descriptor id fun part hpart =>
        FieldType.not_isFaulty_descriptor (valid part hpart).2
  · rintro ⟨⟨parameters, result⟩, ⟨readable, hvalues⟩, htext, sound⟩
    have hparts := fun part hpart =>
      TypeDescriptor.valid_or_void (readable part hpart) (sound part hpart)
    obtain ⟨hparameters, hresult⟩ := List.forall_mem_append.1 hparts
    obtain ⟨types, hvalid, rfl⟩ : ∃ types : List FieldType, (∀ type ∈ types, type.IsValid) ∧
        types.map FieldType.descriptor = parameters :=
      FieldType.exists_map_descriptor fun part hpart =>
        (hparameters part hpart).resolve_right fun heq => hvalues (heq ▸ hpart)
    obtain ⟨type, htype, rfl⟩ | rfl := hresult result List.mem_cons_self
    · refine ⟨⟨types, some type⟩, ?_, by rw [htext, ← MethodType.spelling_descriptor]; rfl⟩
      exact List.forall_mem_append.2 ⟨hvalid, List.forall_mem_singleton.2 htype⟩
    · refine ⟨⟨types, none⟩, ?_, by rw [htext, ← MethodType.spelling_descriptor]; rfl⟩
      exact List.forall_mem_append.2 ⟨hvalid, List.forall_mem_nil _⟩

/-- What slips through is no method descriptor. -/
theorem SlipsThrough.malformed {text : String} (h : SlipsThrough text) : ¬ IsMethodDescriptor text := by
  obtain ⟨t, rest, readable, htext, hslips⟩ := h
  intro hdescriptor
  obtain ⟨t', readable', htext', sound⟩ := isMethodDescriptor_iff.1 hdescriptor
  have hspelling : t.spelling ++ rest = t'.spelling ++ [] := by
    rw [← htext, htext', List.append_nil]
  obtain ⟨rfl, rfl⟩ := MethodTypeDescriptor.eq_of_spelling_append readable.1 readable'.1 hspelling
  rcases hslips with hrest | ⟨part, hpart, faulty⟩
  · exact hrest rfl
  · exact sound part hpart faulty

/-- **A text is read** if it is a method descriptor or slips through, and not otherwise. -/
theorem Descriptor.parse_isOk_iff [DescriptorReader] {next : List Char → Outcome TypeToken}
    (reads : DescriptorReader.ReadsBy next) {text : String} :
    (∃ d, Descriptor.parse text = .ok d) ↔ IsMethodDescriptor text ∨ SlipsThrough text := by
  constructor
  · rintro ⟨d, h⟩
    obtain ⟨t, rest, readable, htext, -⟩ := (Descriptor.parse_eq_ok reads).1 h
    by_cases hslips : rest ≠ [] ∨ ∃ part ∈ t.parts, part.IsFaulty
    · exact .inr ⟨t, rest, readable, htext, hslips⟩
    · push Not at hslips
      obtain ⟨rfl, sound⟩ := hslips
      exact .inl (isMethodDescriptor_iff.2 ⟨t, readable, by rw [htext, List.append_nil], sound⟩)
  · rintro (h | ⟨t, rest, readable, htext, -⟩)
    · obtain ⟨t, readable, htext, -⟩ := isMethodDescriptor_iff.1 h
      exact ⟨_, (Descriptor.parse_eq_ok reads).2
        ⟨t, [], readable, by rw [htext, List.append_nil], rfl⟩⟩
    · exact ⟨_, (Descriptor.parse_eq_ok reads).2 ⟨t, rest, readable, htext, rfl⟩⟩

end Rewire
