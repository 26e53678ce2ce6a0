import Mathlib
import Rewire.Code.Decode
import Rewire.Code.Resolved
import Rewire.Proofs.Outcome

/-!
# Labels of code that is read

Every offset that something refers to gets a label, in ascending order of the offsets. This file
shows

* which offsets get labels, and that all that are referred to are places for instructions
  (`labelledOffsets_eq_ok`);
* that the label at an offset stands for the offset: it is found there (`at?_labelTable`), nothing
  else is (`mem_of_at?`), and the origin of the code tells the offset again
  (`CodeOrigin.offsetOf_eq`).
-/

namespace Rewire

/-! ## 1. Offsets that get labels -/

theorem least?_eq_none {offsets : List Nat} : least? offsets = none ↔ offsets = [] := by
  have hsome : ∀ (f : Option Nat → Nat → Nat) (rest : List Nat) (n : Nat),
      rest.foldl (fun least n => some (f least n)) (some n) ≠ none := by
    intro f rest
    induction rest with
    | nil => exact fun n h => by cases h
    | cons m rest ih => exact fun n => ih _
  constructor
  · intro h
    cases offsets with
    | nil => rfl
    | cons n rest => exact absurd h (hsome _ rest n)
  · rintro rfl
    rfl

/-- What a method refers to by offset. -/
def referencedOffsets (parts : CodeParts) (scan : CodeScan) : List Nat :=
  scan.targets.toList ++ parts.tableOffsets

/-- The places for labels: where instructions start, and the end. -/
def labelPlaces (parts : CodeParts) (scan : CodeScan) : List Nat :=
  scan.starts.toList ++ [parts.code.size]

/-- **The offsets that get labels** are the places that are referred to, and nothing else is. -/
theorem labelledOffsets_eq_ok {parts : CodeParts} {scan : CodeScan} {offsets : List Nat} :
    labelledOffsets parts scan = .ok offsets ↔
      (∀ n ∈ referencedOffsets parts scan, n ∈ labelPlaces parts scan) ∧
        offsets = (labelPlaces parts scan).filter (· ∈ referencedOffsets parts scan) := by
  have hplaces : ∀ n, (Std.HashSet.ofList (labelPlaces parts scan)).contains n =
      decide (n ∈ labelPlaces parts scan) := fun n => by
    rw [Std.HashSet.contains_ofList, List.contains_eq_mem]
  have hreferenced : (Std.HashSet.ofList (referencedOffsets parts scan)).contains =
      fun n => decide (n ∈ referencedOffsets parts scan) := funext fun n => by
    rw [Std.HashSet.contains_ofList, List.contains_eq_mem]
  have hnone : (referencedOffsets parts scan).filter
      (fun n => !(Std.HashSet.ofList (labelPlaces parts scan)).contains n) = [] ↔
        ∀ n ∈ referencedOffsets parts scan, n ∈ labelPlaces parts scan := by
    simp [hplaces, List.filter_eq_nil_iff]
  unfold labelledOffsets
  simp only
  rw [← referencedOffsets, ← labelPlaces]
  cases hleast : least? ((referencedOffsets parts scan).filter
      (fun n => !(Std.HashSet.ofList (labelPlaces parts scan)).contains n)) with
  | some n =>
    constructor
    · intro h
      cases h
    · rintro ⟨h, -⟩
      rw [← hnone, ← least?_eq_none, hleast] at h
      cases h
  | none =>
    rw [← hnone, ← least?_eq_none, hleast, hreferenced, pure_eq_ok]
    simp [eq_comm]

/-! ## 2. Numbered labels -/

section Numbered

variable {offsets : List Nat}

theorem mem_numberLabels {l : Label} {n : Nat} :
    (l, n) ∈ numberLabels offsets ↔ offsets[l.id]? = some n := by
  unfold numberLabels
  rw [List.mem_map]
  constructor
  · rintro ⟨⟨m, k⟩, hm, heq⟩
    cases heq
    exact (List.mk_mem_zipIdx_iff_getElem?).1 hm
  · intro h
    exact ⟨(n, l.id), List.mk_mem_zipIdx_iff_getElem?.2 h, rfl⟩

theorem exists_label {n : Nat} (h : n ∈ offsets) : ∃ l, (l, n) ∈ numberLabels offsets := by
  obtain ⟨k, hk⟩ := List.mem_iff_getElem?.1 h
  exact ⟨⟨k⟩, mem_numberLabels.2 hk⟩

theorem map_snd_numberLabels (offsets : List Nat) : (numberLabels offsets).map Prod.snd = offsets := by
  unfold numberLabels
  rw [List.map_map]
  exact List.zipIdx_map_fst 0 offsets

/-- The label at an offset that has one. -/
theorem at?_labelTable (nodup : offsets.Nodup) {l : Label} {n : Nat}
    (h : (l, n) ∈ numberLabels offsets) : (labelTable (numberLabels offsets)).at? n = some l := by
  unfold LabelTable.at? labelTable
  refine Std.HashMap.getElem?_ofList_of_mem (beq_self_eq_true n) ?_
    (List.mem_map.2 ⟨(l, n), h, rfl⟩)
  rw [List.pairwise_map]
  have hpairs : (numberLabels offsets).Pairwise fun a b => a.2 ≠ b.2 := by
    rw [← List.pairwise_map, map_snd_numberLabels]
    exact nodup
  exact hpairs.imp fun hne => beq_eq_false_iff_ne.2 hne

theorem mem_of_at? (nodup : offsets.Nodup) {l : Label} {n : Nat}
    (h : (labelTable (numberLabels offsets)).at? n = some l) : (l, n) ∈ numberLabels offsets := by
  by_cases hn : n ∈ offsets
  · obtain ⟨l', hl'⟩ := exists_label hn
    rw [at?_labelTable nodup hl'] at h
    cases h
    exact hl'
  · have hnone : (labelTable (numberLabels offsets)).at? n = none := by
      unfold LabelTable.at? labelTable
      refine Std.HashMap.getElem?_ofList_of_contains_eq_false ?_
      rw [List.map_map, List.contains_eq_mem, decide_eq_false_iff_not]
      exact fun hmem => hn (by rwa [← map_snd_numberLabels offsets])
    rw [hnone] at h
    cases h

/-- The label at an offset is numbered by the place of the offset. -/
theorem at?_numberLabels (nodup : offsets.Nodup) (n : Nat) :
    (labelTable (numberLabels offsets)).at? n = (offsets.findIdx? (· = n)).map Label.mk := by
  cases hfind : offsets.findIdx? (· = n) with
  | some k =>
    obtain ⟨hlt, hn, -⟩ := List.findIdx?_eq_some_iff_getElem.1 hfind
    refine at?_labelTable nodup (mem_numberLabels.2 ?_)
    rw [List.getElem?_eq_getElem hlt, of_decide_eq_true hn]
  | none =>
    cases hat : (labelTable (numberLabels offsets)).at? n with
    | none => rfl
    | some l =>
      have hmem := List.mem_of_getElem? (mem_numberLabels.1 (mem_of_at? nodup hat))
      exact absurd (decide_eq_true rfl) (List.findIdx?_eq_none_iff.1 hfind n hmem ▸ Bool.false_ne_true)

/-- The origin of code tells the offset of each of its labels. -/
theorem CodeOrigin.offsetOf_eq {o : CodeOrigin} (ho : o.labelOffsets = numberLabels offsets)
    {l : Label} {n : Nat} (h : (l, n) ∈ numberLabels offsets) : o.offsetOf l = n := by
  unfold CodeOrigin.offsetOf
  rw [ho]
  cases hfind : (numberLabels offsets).find? fun entry => entry.1 = l with
  | none =>
    rw [List.find?_eq_none] at hfind
    exact absurd (decide_eq_true rfl) (hfind (l, n) h)
  | some entry =>
    obtain ⟨l', m⟩ := entry
    have hl' := List.find?_some hfind
    have hmem := List.mem_of_find?_eq_some hfind
    simp only [decide_eq_true_eq] at hl'
    subst hl'
    rw [mem_numberLabels] at h hmem
    rw [h] at hmem
    cases hmem
    rfl

end Numbered

end Rewire
