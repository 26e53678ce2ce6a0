import Rewire.Proofs.Descriptor.Reading
import Rewire.Redirect.Table

/-!
# What gets into a redirect table

A replacement gets into a table if its descriptor is read, and a list of replacements makes a table
if every descriptor in it is read. So a descriptor that is malformed keeps a whole table from being
built, but for those that slip through (`RedirectTable.refuses_malformed`).
-/

namespace Rewire

namespace RedirectTable

section Readers

variable [DescriptorReader]

/-- A replacement gets in if its descriptor is read, whatever is in the table already. -/
theorem insert_isOk_iff {t : RedirectTable} {r : Replacement} :
    (∃ t', t.insert r = .ok t') ↔ ∃ d, Descriptor.parse r.descriptor = .ok d := by
  constructor
  · rintro ⟨t', h⟩
    obtain ⟨d, hd, -⟩ := bind_eq_ok.1 h
    exact ⟨d, during_eq_ok.1 hd⟩
  · rintro ⟨d, hd⟩
    exact ⟨_, bind_eq_ok.2 ⟨d, during_eq_ok.2 hd, rfl⟩⟩

/-- A list of replacements gets in if every descriptor in it is read. -/
theorem foldlM_insert_isOk_iff {t : RedirectTable} {rs : List Replacement} :
    (∃ t', rs.foldlM insert t = .ok t') ↔
      ∀ r ∈ rs, ∃ d, Descriptor.parse r.descriptor = .ok d := by
  induction rs generalizing t with
  | nil => exact iff_of_true ⟨t, rfl⟩ (List.forall_mem_nil _)
  | cons r rs ih =>
    simp only [List.foldlM_cons, bind_eq_ok]
    rw [List.forall_mem_cons, ← insert_isOk_iff (t := t)]
    constructor
    · rintro ⟨t', next, hnext, h⟩
      exact ⟨⟨next, hnext⟩, ih.1 ⟨t', h⟩⟩
    · rintro ⟨⟨next, hnext⟩, hrs⟩
      obtain ⟨t', h⟩ := ih.2 hrs
      exact ⟨t', next, hnext, h⟩

/-- **Malformed descriptors are refused** unless they slip through: reading such a text fails, it gets
    into no table, and no list of replacements that contains it makes one. Those that slip through
    are malformed and get in. -/
theorem refuses_malformed {next : List Char → Outcome TypeToken}
    (reads : DescriptorReader.ReadsBy next) {text : String}
    (malformed : ¬ IsMethodDescriptor text) :
    ((∃ e, Descriptor.parse text = .error e) ↔ ¬ SlipsThrough text) ∧
      (∀ (t : RedirectTable) (r : Replacement), r.descriptor = text →
        ((∃ e, t.insert r = .error e) ↔ ¬ SlipsThrough text)) ∧
      (¬ SlipsThrough text → ∀ rs : List Replacement, (∃ r ∈ rs, r.descriptor = text) →
        ∃ e, ofReplacements rs = .error e) := by
  have hparse : (∃ d, Descriptor.parse text = .ok d) ↔ SlipsThrough text := by
    rw [Descriptor.parse_isOk_iff reads, or_iff_right malformed]
  refine ⟨?_, ?_, ?_⟩
  · rw [exists_error_iff, hparse]
  · rintro t r rfl
    rw [exists_error_iff, insert_isOk_iff, hparse]
  · rintro hslips rs ⟨r, hr, rfl⟩
    rw [exists_error_iff, ofReplacements, foldlM_insert_isOk_iff]
    exact fun hall => hslips (hparse.1 (hall r hr))

end Readers

/-- The scanner refuses a letter that stands for no type, and takes text behind the result. -/
theorem refuses_malformed_unknownLetter : DescriptorReader.ReadsBy Scanner.readType ∧
    (¬ IsMethodDescriptor "(Q)V" ∧ ¬ SlipsThrough "(Q)V" ∧
        ∃ e, ofReplacements [⟨"A", "f", "()V"⟩, ⟨"A", "g", "(Q)V"⟩] = .error e) ∧
      ¬ IsMethodDescriptor "()VV" ∧ ¬ ∃ e, empty.insert ⟨"A", "f", "()VV"⟩ = .error e := by
  have unread : ¬ ∃ d, Descriptor.parse "(Q)V" = .ok d := by
    rintro ⟨d, h⟩
    cbv at h
    cases h
  rw [Descriptor.parse_isOk_iff Scanner.readsBy, not_or] at unread
  obtain ⟨malformed, caught⟩ := unread
  have slips : SlipsThrough "()VV" :=
    ⟨⟨[], .void⟩, ['V'], by decide, rfl, .inl (List.cons_ne_nil _ _)⟩
  refine ⟨Scanner.readsBy, ⟨malformed, caught, ?_⟩, slips.malformed, ?_⟩
  · exact (refuses_malformed Scanner.readsBy malformed).2.2 caught _
      ⟨_, List.mem_of_getElem? (i := 1) rfl, rfl⟩
  · rw [(refuses_malformed Scanner.readsBy slips.malformed).2.1 empty _ rfl, not_not]
    exact slips

end RedirectTable

end Rewire
