import Mathlib
import Rewire.Proofs.Rule.Apply
import Rewire.Transform.Transformer

/-!
# Rules apply or change nothing

A rule goes through all methods before it knows whether it failed, and edits those in which it finds
its pattern as it goes. Where it finds the pattern nowhere, it has not changed anything. This file
shows

* which methods a rule edits, and how (`PatchRule.Patches`), or that it finds nothing and leaves the
  class and its generator as they were (`PatchRule.patched_of_not_finds`);
* that several rules do so in turn, each in what the rules before it left, up to the first that
  finds nothing (`PatchRule.Chain`, `PatchRule.StopsAt`);
* all of it together, for generators of any kind and for the rules of a transformer
  (`PatchRule.applies_or_leaves`).
-/

namespace Rewire

/-! ## 1. One rule -/

namespace PatchRule

variable {σ : Type} {r : PatchRule (Generator σ)} {rules : List (PatchRule (Generator σ))}
  {s s' s'' : σ} {c c' c'' : ClassBody} {m : Method} {ms : List Method} {n k : Nat}

/-- A rule finds its pattern in a method of its name. -/
def Finds {Source : Type} (r : PatchRule Source) (c : ClassBody) : Prop :=
  ∃ m ∈ c.methods, m.name = r.methodName ∧ m.matches r.pattern ≠ []

/-- What a rule makes of a method in which it finds its pattern, when its generator has run `n`
    times since the state `s`: `m'`. -/
def Edits (r : PatchRule (Generator σ)) (s : σ) (n : Nat) (m m' : Method) : Prop :=
  match r.action with
  | .inject generator => m.Injects r.pattern (fun k => generator.output s (n + k)) m'
  | .remove => ∃ left, m.Deletes r.pattern left m'

/-- What a rule makes of a class in which it finds its pattern: `c'`. Its generator goes from the
    state `s` to `s'`. -/
structure Patches (r : PatchRule (Generator σ)) (s : σ) (c : ClassBody) (s' : σ) (c' : ClassBody) :
    Prop where
  finds : r.Finds c
  /-- Nothing changes but the methods, and these stay in their order. -/
  same : c' = { c with methods := c'.methods }
  length : c'.methods.length = c.methods.length
  /-- Methods of other names stay, and methods without an occurrence. -/
  kept : ∀ (k : Nat) m, c.methods[k]? = some m →
    m.name ≠ r.methodName ∨ m.matches r.pattern = [] → c'.methods[k]? = some m
  /-- The others are edited and flagged. The generator ran for the methods before. -/
  edited : ∀ (k : Nat) m, c.methods[k]? = some m →
    m.name = r.methodName → m.matches r.pattern ≠ [] →
      ∃ m', c'.methods[k]? = some m' ∧ m'.modified = true ∧
        r.Edits s ((c.methods.take k).flatMap r.occurrences).length m m'
  generated : s' = r.generator.after s (c.methods.flatMap r.occurrences).length

theorem occurrences_eq_nil :
    r.occurrences m = [] ↔ m.name ≠ r.methodName ∨ m.matches r.pattern = [] := by
  unfold occurrences
  split
  · rename_i hname
    exact (or_iff_right (not_not_intro hname)).symm
  · rename_i hname
    exact iff_of_true rfl (.inl hname)

theorem occurrences_ne_nil :
    r.occurrences m ≠ [] ↔ m.name = r.methodName ∧ m.matches r.pattern ≠ [] := by
  rw [Ne, occurrences_eq_nil, not_or, not_not]

theorem edited_of_no_occurrences (h : r.occurrences m = []) : r.edited s n m = (false, m) := by
  unfold edited
  split
  · rename_i hname
    have hnone := (or_iff_right (not_not_intro hname)).1 (occurrences_eq_nil.1 h)
    cases r.action with
    | inject generator =>
      show m.inject r.pattern _ = _
      rw [Method.inject, if_pos (List.isEmpty_iff.2 hnone)]
    | remove =>
      show m.remove r.pattern = _
      rw [Method.remove, if_pos (List.isEmpty_iff.2 hnone)]
  · rfl

/-- **A method in which a rule finds its pattern** is edited. -/
theorem exists_edits (s : σ) (n : Nat) (h : r.occurrences m ≠ []) :
    ∃ m', r.edited s n m = (true, m') ∧ m'.modified = true ∧ r.Edits s n m m' := by
  obtain ⟨hname, hsome⟩ := occurrences_ne_nil.1 h
  have hempty := mt List.isEmpty_iff.1 hsome
  unfold edited Edits
  rw [if_pos hname]
  cases r.action with
  | inject generator =>
    have hinjects := Method.injects_inject (fun k => generator.output s (n + k)) hsome
    refine ⟨_, ?_, ?_, hinjects⟩
    · show m.inject r.pattern _ = _
      rw [Method.inject, if_neg hempty]
    · rw [hinjects.same]
  | remove =>
    have hdeletes := Method.deletes_remove hempty
    refine ⟨_, ?_, ?_, _, hdeletes⟩
    · show m.remove r.pattern = _
      rw [Method.remove, if_neg hempty]
    · rw [hdeletes.same]

theorem fst_edited : (r.edited s n m).1 = true ↔ r.occurrences m ≠ [] := by
  by_cases h : r.occurrences m = []
  · rw [edited_of_no_occurrences h]
    exact iff_of_false Bool.false_ne_true (not_not_intro h)
  · obtain ⟨m', hedited, -⟩ := exists_edits s n h
    rw [hedited]
    exact iff_of_true rfl h

theorem getElem?_editedAll : (r.editedAll s n ms)[k]? =
    ms[k]?.map (r.edited s (n + ((ms.take k).flatMap r.occurrences).length)) := by
  induction ms generalizing n k with
  | nil => rfl
  | cons m rest ih =>
    cases k with
    | zero => rfl
    | succ k =>
      rw [editedAll, List.getElem?_cons_succ, ih, List.getElem?_cons_succ, List.take_succ_cons,
        List.flatMap_cons, List.length_append, Nat.add_assoc]

theorem length_editedAll : (r.editedAll s n ms).length = ms.length :=
  (forall₂_editedAll (R := fun _ _ => True) (fun _ _ => trivial) n ms).length_eq.symm

/-- **A rule finds something** exactly if it edits a method. -/
theorem any_editedAll :
    (r.editedAll s 0 c.methods).any Prod.fst = true ↔ r.Finds c := by
  rw [List.any_eq_true]
  constructor
  · rintro ⟨e, he, hfound⟩
    obtain ⟨k, hk⟩ := List.mem_iff_getElem?.1 he
    rw [getElem?_editedAll] at hk
    obtain ⟨m, hm, rfl⟩ := Option.map_eq_some_iff.1 hk
    exact ⟨m, List.mem_of_getElem? hm, occurrences_ne_nil.1 (fst_edited.1 hfound)⟩
  · rintro ⟨m, hm, hfinds⟩
    obtain ⟨k, hk⟩ := List.mem_iff_getElem?.1 hm
    obtain ⟨e, he, n, rfl⟩ : ∃ e, (r.editedAll s 0 c.methods)[k]? = some e ∧
        ∃ n, e = r.edited s n m := by
      rw [getElem?_editedAll, hk]
      exact ⟨_, rfl, _, rfl⟩
    exact ⟨_, List.mem_of_getElem? he, fst_edited.2 (occurrences_ne_nil.2 hfinds)⟩

/-- **A rule that finds something** does not fail, and edits. -/
theorem patches_of_finds (s : σ) (h : r.Finds c) :
    (r.patched s c).result = .ok () ∧
      r.Patches s c (r.generator.after s (c.methods.flatMap r.occurrences).length)
        (r.patched s c).body := by
  have hget : ∀ k : Nat, (r.patched s c).body.methods[k]? = c.methods[k]?.map fun m =>
      (r.edited s ((c.methods.take k).flatMap r.occurrences).length m).2 := by
    intro k
    show ((r.editedAll s 0 c.methods).map Prod.snd)[k]? = _
    rw [List.getElem?_map, getElem?_editedAll, Nat.zero_add, Option.map_map]
    rfl
  refine ⟨if_pos (any_editedAll.2 h), ?_⟩
  exact {
    finds := h
    same := rfl
    length := (List.length_map _).trans length_editedAll
    kept := fun k m hm hnone => by
      rw [hget, hm, Option.map_some, edited_of_no_occurrences (occurrences_eq_nil.2 hnone)]
    edited := fun k m hm hname hsome => by
      obtain ⟨m', hedited, hrest⟩ := exists_edits s
        ((c.methods.take k).flatMap r.occurrences).length (occurrences_ne_nil.2 ⟨hname, hsome⟩)
      exact ⟨m', by rw [hget, hm, Option.map_some, hedited], hrest⟩
    generated := rfl }

/-- **A rule that finds nothing** fails, and changes neither the class nor the state of its
    generator. -/
theorem patched_of_not_finds (s : σ) (h : ¬ r.Finds c) :
    r.patched s c = { body := c, notices := [], result := .error ⟨[], r.nothingFound⟩ } ∧
      r.generator.after s (c.methods.flatMap r.occurrences).length = s := by
  have hnone : ∀ m ∈ c.methods, r.occurrences m = [] := fun m hm => by
    by_contra hsome
    exact h ⟨m, hm, occurrences_ne_nil.1 hsome⟩
  have hall : r.editedAll s 0 c.methods = c.methods.map fun m => (false, m) := by
    refine List.ext_getElem? fun k => ?_
    rw [getElem?_editedAll, List.getElem?_map]
    cases hk : c.methods[k]? with
    | none => rfl
    | some m =>
      rw [Option.map_some, Option.map_some,
        edited_of_no_occurrences (hnone m (List.mem_of_getElem? hk))]
  constructor
  · have hbody : (c.methods.map fun m => (false, m)).map Prod.snd = c.methods := by
      rw [List.map_map]
      exact List.map_id _
    have hnotices : (c.methods.map fun m => (false, m)).filter Prod.fst = [] := by
      rw [List.filter_map, List.map_eq_nil_iff]
      exact List.filter_eq_nil_iff.2 fun _ _ => Bool.false_ne_true
    rw [patched, if_neg (mt any_editedAll.1 h), hall, hbody, hnotices]
    rfl
  · rw [List.flatMap_eq_nil_iff.2 hnone]
    rfl

/-- What becomes of a class when a rule is applied to it (`done`), and of the state of its generator
    (`s'`). -/
structure AppliesOrLeaves (r : PatchRule (Generator σ)) (s : σ) (c : ClassBody) (done : Patching)
    (s' : σ) : Prop where
  fails_iff : (∃ f, done.result = .error f) ↔
    ∀ m ∈ c.methods, m.name = r.methodName → m.matches r.pattern = []
  /-- Nothing changes where the rule fails, and it reports nothing else. -/
  leaves : ∀ f, done.result = .error f →
    f = ⟨[], r.nothingFound⟩ ∧ done.body = c ∧ done.notices = [] ∧ s' = s
  applies : done.result = .ok () → r.Patches s c s' done.body

/-- **One rule**, from its two cases. -/
theorem appliesOrLeaves_patch (r : PatchRule (Generator σ)) (s : σ) (c : ClassBody) :
    r.AppliesOrLeaves s c (StateT.run (r.patch c) s).1 (StateT.run (r.patch c) s).2 := by
  rw [run_patch]
  by_cases hfinds : r.Finds c
  · obtain ⟨hresult, hpatches⟩ := patches_of_finds s hfinds
    obtain ⟨m, hm, hname, hsome⟩ := hfinds
    refine ⟨iff_of_false ?_ fun hnone => hsome (hnone m hm hname), fun f hf => ?_,
      fun _ => hpatches⟩
    · rintro ⟨f, hf⟩
      cases hresult.symm.trans hf
    · cases hresult.symm.trans hf
  · obtain ⟨hleft, hstate⟩ := patched_of_not_finds s hfinds
    rw [hleft, hstate]
    refine ⟨iff_of_true ⟨_, rfl⟩ fun m hm hname => ?_, fun f hf => ?_, fun hok => ?_⟩
    · by_contra hsome
      exact hfinds ⟨m, hm, hname, hsome⟩
    · exact ⟨(Except.error.inj hf).symm, rfl, rfl, rfl⟩
    · cases hok

/-! ## 2. Several rules -/

/-- Rules that each find their pattern in what the rules before left. Together they lead from the
    class `c` to another one, and their generators from the state `s` to another one. -/
inductive Chain : List (PatchRule (Generator σ)) → σ → ClassBody → σ → ClassBody → Prop
  | nil (s : σ) (c : ClassBody) : Chain [] s c s c
  | cons {r : PatchRule (Generator σ)} {rest : List (PatchRule (Generator σ))} {s s' s'' : σ}
      {c c' c'' : ClassBody} (first : r.Patches s c s' c') (others : Chain rest s' c' s'' c'') :
      Chain (r :: rest) s c s'' c''

/-- Of several rules, `r` is the first one that finds nothing; those before it left the class
    `c'`. -/
def StopsAt (rules : List (PatchRule (Generator σ))) (s : σ) (c : ClassBody) (s' : σ)
    (c' : ClassBody) (r : PatchRule (Generator σ)) : Prop :=
  ∃ before after, rules = before ++ r :: after ∧ Chain before s c s' c' ∧ ¬ r.Finds c'

theorem StopsAt.cons {first : PatchRule (Generator σ)} (hfirst : first.Patches s c s' c')
    (h : StopsAt rules s' c' s'' c'' r) : StopsAt (first :: rules) s c s'' c'' r := by
  obtain ⟨before, after, rfl, hchain, hfinds⟩ := h
  exact ⟨first :: before, after, rfl, .cons hfirst hchain, hfinds⟩

/-- What becomes of a class when several rules are applied to it (`done`), and of the state of their
    generators (`s'`). -/
structure AppliesInTurn (rules : List (PatchRule (Generator σ))) (s : σ) (c : ClassBody)
    (done : Patching) (s' : σ) : Prop where
  applies : done.result = .ok () → Chain rules s c s' done.body
  stops : ∀ f, done.result = .error f →
    ∃ r, StopsAt rules s c s' done.body r ∧ f = ⟨[], r.nothingFound⟩

/-- **Rules are applied in turn**, up to the first that finds nothing in what the others left. -/
theorem appliesInTurn_patchAll (rules : List (PatchRule (Generator σ))) (s : σ) (c : ClassBody) :
    AppliesInTurn rules s c (StateT.run (patchAll rules c) s).1
      (StateT.run (patchAll rules c) s).2 := by
  induction rules generalizing s c with
  | nil => exact ⟨fun _ => .nil s c, fun f h => by cases h⟩
  | cons r rest ih =>
    by_cases hfinds : r.Finds c
    · obtain ⟨hresult, hpatches⟩ := patches_of_finds s hfinds
      have hrest := ih (r.generator.after s (c.methods.flatMap r.occurrences).length)
        (r.patched s c).body
      rw [run_patchAll_of_ok hresult rfl]
      refine ⟨fun h => .cons hpatches (hrest.applies h), fun f h => ?_⟩
      obtain ⟨stop, hstops, hf⟩ := hrest.stops f h
      exact ⟨stop, hstops.cons hpatches, hf⟩
    · obtain ⟨hleft, hstate⟩ := patched_of_not_finds s hfinds
      have hresult : (r.patched s c).result = .error ⟨[], r.nothingFound⟩ := by rw [hleft]
      rw [run_patchAll_of_error hresult, hleft, hstate]
      refine ⟨fun h => ?_, fun f h => ?_⟩
      · cases h
      · exact ⟨r, ⟨[], rest, rfl, .nil s c, hfinds⟩, (Except.error.inj h).symm⟩

end PatchRule

/-! ## 3. The rules of a transformer -/

namespace Transformer

variable {σ : Type} {t : Transformer σ} {name : String} {log : Log} {s : σ} {c : ClassBody}

theorem run_applyRules : t.applyRules name c (log, s) = (during (.patchingClass name)
    ((StateT.run (PatchRule.patchAll (t.rulesFor name) c) s).1.result.map fun _ =>
      (StateT.run (PatchRule.patchAll (t.rulesFor name) c) s).1.body),
    ((StateT.run (PatchRule.patchAll (t.rulesFor name) c) s).1.notices.foldl Array.push log,
      (StateT.run (PatchRule.patchAll (t.rulesFor name) c) s).2)) := by
  rw [applyRules, Step.run_during, PatchRule.applyAll, Generating.run_ofPatching]

/-- What becomes of a class and of the generators when the rules of a transformer for it are
    applied: `result` and `s'`. -/
structure AppliesRules (t : Transformer σ) (name : String) (s : σ) (c : ClassBody)
    (result : Outcome ClassBody) (s' : σ) : Prop where
  applies : ∀ c', result = .ok c' → PatchRule.Chain (t.rulesFor name) s c s' c'
  /-- The class that a rule failed on is not given out. -/
  stops : ∀ f, result = .error f →
    ∃ r c', PatchRule.StopsAt (t.rulesFor name) s c s' c' r ∧
      f = ⟨[.patchingClass name], r.nothingFound⟩

theorem appliesRules_applyRules (t : Transformer σ) (name : String) (s : σ) (c : ClassBody)
    (log : Log) : t.AppliesRules name s c (t.applyRules name c (log, s)).1
      (t.applyRules name c (log, s)).2.2 := by
  have hturn := PatchRule.appliesInTurn_patchAll (t.rulesFor name) s c
  rw [run_applyRules]
  cases hresult : (StateT.run (PatchRule.patchAll (t.rulesFor name) c) s).1.result with
  | ok =>
    refine ⟨fun c' h => ?_, fun f h => ?_⟩
    · cases h
      exact hturn.applies hresult
    · cases h
  | error f =>
    obtain ⟨r, hstops, rfl⟩ := hturn.stops f hresult
    refine ⟨fun c' h => ?_, fun f h => ?_⟩
    · cases h
    · exact ⟨r, _, hstops, (Except.error.inj h).symm⟩

end Transformer

/-- **A rule applies or changes nothing.** It fails exactly if no method of its name has an
    occurrence of its pattern, and leaves the class as it was. Otherwise it edits the methods of its
    name that have one, and no others. Several rules do so in turn, each in what those before it
    left; so do the rules of a transformer. -/
theorem PatchRule.applies_or_leaves {σ : Type} (r : PatchRule (Generator σ))
    (rules : List (PatchRule (Generator σ))) (s : σ) (c : ClassBody) (t : Transformer σ)
    (name : String) (log : Log) :
    r.AppliesOrLeaves s c (StateT.run (r.patch c) s).1 (StateT.run (r.patch c) s).2 ∧
      AppliesInTurn rules s c (StateT.run (patchAll rules c) s).1
        (StateT.run (patchAll rules c) s).2 ∧
      t.AppliesRules name s c (t.applyRules name c (log, s)).1
        (t.applyRules name c (log, s)).2.2 :=
  ⟨appliesOrLeaves_patch r s c, appliesInTurn_patchAll rules s c,
    t.appliesRules_applyRules name s c log⟩

/-! ## 4. Rules that follow each other

A class with two methods of one name, of which one has a loop with drops, and a method of another
name with the same loop. The second of two rules finds only what the first one left. -/

namespace dropLoop

/-- The loop without its drops, after they were padded. Its start stays, for the jump back. -/
def unpadded : Method :=
  { dropLoop with
    nodes := #[.insn (.var 0x15 0), .label ⟨0⟩, .insn (.var 0x15 1), .insn (.simple Opcode.nop),
      .label ⟨1⟩, .insn (.jump Opcode.goto ⟨0⟩)]
    modified := true }

theorem inject_eq :
    dropLoop.inject [.opcode Opcode.pop] (Generator.output growingPadding 0) = (true, padded) := by
  have hsome : dropLoop.matches [.opcode Opcode.pop] ≠ [] := by
    rw [matches_eq]
    exact List.cons_ne_nil _ _
  have hinjects := Method.injects_inject (Generator.output growingPadding 0) hsome
  have hnodes : (dropLoop.inject [.opcode Opcode.pop] (Generator.output growingPadding 0)).2.nodes =
      padded.nodes := by
    rw [← Array.toList_inj, hinjects.nodes, matches_eq]
    rfl
  refine Prod.ext ?_ ?_
  · rw [Method.inject, matches_eq]
    rfl
  · rw [hinjects.same, hnodes]
    rfl

theorem remove_eq :
    padded.remove [.opcode Opcode.pop, .opcode Opcode.nop] = (true, unpadded) := by
  have hmatches : padded.matches [.opcode Opcode.pop, .opcode Opcode.nop] =
      [⟨1, 2, 5⟩, ⟨6, 7, 8⟩] := by
    cbv
  unfold Method.remove
  rw [hmatches]
  simp [padded, unpadded, dropLoop, coveredBy, Match.nodes, Match.labels, referencedLabels,
    Node.targets, Insn.targets, List.range']

end dropLoop

/-- A class with a method in place of the loop. -/
def withLoop (m : Method) : ClassBody where
  name := "A"
  superName := none
  methods := [m,
    { name := "f", descriptor := "()V", flags := staticFlag, nodes := #[.insn (.simple 0xb1)] },
    { dropLoop with name := "g" }]

/-- Pads drops, each with one instruction more than the last. -/
def padDrops : PatchRule (Generator Nat) where
  id := "PAD"
  name := "pad drops"
  description := "Inserts instructions that do nothing"
  className := "A"
  methodName := "f"
  pattern := [.opcode Opcode.pop]
  action := .inject growingPadding

/-- Deletes drops that are padded. -/
def deletePadded (Source : Type) : PatchRule Source where
  id := "DELETE"
  name := "delete padded drops"
  description := "Deletes drops and what pads them"
  className := "A"
  methodName := "f"
  pattern := [.opcode Opcode.pop, .opcode Opcode.nop]
  action := .remove

namespace withLoop

/-- A rule that edits the first method, and finds nothing in the others. -/
theorem patched_eq {r : PatchRule (Generator Nat)} {s : Nat} {m m' : Method}
    (hedited : r.edited s 0 m = (true, m'))
    (hnone : (withLoop m).methods.tail.flatMap r.occurrences = []) :
    r.patched s (withLoop m) =
      { body := withLoop m'
        notices := [.ruleApplied r.id ⟨"A", m'.name, m'.descriptor⟩]
        result := .ok () } := by
  have hall : r.editedAll s 0 (withLoop m).methods =
      (true, m') :: (withLoop m).methods.tail.map fun other => (false, other) := by
    have hothers := List.flatMap_eq_nil_iff.1 hnone
    rw [withLoop, PatchRule.editedAll, hedited, PatchRule.editedAll, PatchRule.editedAll,
      PatchRule.edited_of_no_occurrences (hothers _ List.mem_cons_self),
      PatchRule.edited_of_no_occurrences (hothers _ (List.mem_cons_of_mem _ List.mem_cons_self))]
    rfl
  rw [PatchRule.patched, hall]
  rfl

theorem run_padDrops : StateT.run (padDrops.patch (withLoop dropLoop)) 0 =
    ({ body := withLoop dropLoop.padded
       notices := [.ruleApplied "PAD" ⟨"A", "f", "(II)V"⟩]
       result := .ok () }, 2) := by
  have hedited : padDrops.edited 0 0 dropLoop = (true, dropLoop.padded) := by
    show dropLoop.inject _ (fun k => Generator.output growingPadding 0 (0 + k)) = _
    simp only [Nat.zero_add]
    exact dropLoop.inject_eq
  have hfound : ((withLoop dropLoop).methods.flatMap padDrops.occurrences).length = 2 := by
    cbv
  rw [PatchRule.run_patch, hfound, patched_eq hedited (by cbv)]
  rfl

theorem run_deletePadded (s : Nat) :
    StateT.run (PatchRule.patch (deletePadded _) (withLoop dropLoop.padded)) s =
      ({ body := withLoop dropLoop.unpadded
         notices := [.ruleApplied "DELETE" ⟨"A", "f", "(II)V"⟩]
         result := .ok () }, s) := by
  have hedited : PatchRule.edited (deletePadded _) s 0 dropLoop.padded = (true, dropLoop.unpadded) :=
    dropLoop.remove_eq
  rw [PatchRule.run_patch, patched_eq hedited (by cbv)]
  exact congrArg _ (Generator.after_always _ _ _)

/-- The second rule finds what the first one left. -/
theorem run_patchAll :
    StateT.run (PatchRule.patchAll [padDrops, deletePadded _] (withLoop dropLoop)) 0 =
      ({ body := withLoop dropLoop.unpadded
         notices := [.ruleApplied "PAD" ⟨"A", "f", "(II)V"⟩,
           .ruleApplied "DELETE" ⟨"A", "f", "(II)V"⟩]
         result := .ok () }, 2) := by
  rw [PatchRule.patchAll, StateT.run_bind, run_padDrops]
  show StateT.run (PatchRule.patchAll [deletePadded _] (withLoop dropLoop.padded) >>= _) 2 = _
  rw [PatchRule.patchAll, StateT.run_bind, StateT.run_bind, run_deletePadded]
  rfl

/-- A transformer that has only the second rule. -/
def deleting : Transformer Nat where
  table := .empty
  classFilter := {}
  callFilter := {}
  rules := [deletePadded _]

end withLoop

/-- The second rule fails on its own, also in a transformer, and applies behind the first one. -/
theorem PatchRule.applies_or_leaves_withLoop :
    ((StateT.run (patch (deletePadded _) (withLoop dropLoop)) 0).1.result =
        .error ⟨[], nothingFound (deletePadded (Generator Nat))⟩ ∧
      (StateT.run (patch (deletePadded _) (withLoop dropLoop)) 0).1.body = withLoop dropLoop) ∧
    (Patches padDrops 0 (withLoop dropLoop) 2 (withLoop dropLoop.padded) ∧
      Chain [padDrops, deletePadded _] 0 (withLoop dropLoop) 2 (withLoop dropLoop.unpadded)) ∧
    (withLoop.deleting.applyRules "A" (withLoop dropLoop) (#[], 0)).1 =
        .error ⟨[.patchingClass "A"], nothingFound (deletePadded (Generator Nat))⟩ ∧
      ∃ r s' c', StopsAt (withLoop.deleting.rulesFor "A") 0 (withLoop dropLoop) s' c' r := by
  have hfails : (StateT.run (patch (deletePadded _) (withLoop dropLoop)) 0).1.result =
      .error ⟨[], nothingFound (deletePadded (Generator Nat))⟩ := by
    cbv
  have hstops : (withLoop.deleting.applyRules "A" (withLoop dropLoop) (#[], 0)).1 =
      .error ⟨[.patchingClass "A"], nothingFound (deletePadded (Generator Nat))⟩ := by
    cbv
  obtain ⟨halone, -, htransformer⟩ := applies_or_leaves (deletePadded _) [] 0 (withLoop dropLoop)
    withLoop.deleting "A" #[]
  obtain ⟨hfirst, hturn, -⟩ := applies_or_leaves padDrops [padDrops, deletePadded _] 0
    (withLoop dropLoop) withLoop.deleting "A" #[]
  rw [withLoop.run_padDrops] at hfirst
  rw [withLoop.run_patchAll] at hturn
  obtain ⟨r, c', hr, -⟩ := htransformer.stops _ hstops
  exact ⟨⟨hfails, (halone.leaves _ hfails).2.1⟩, ⟨hfirst.applies rfl, hturn.applies rfl⟩, hstops,
    r, _, c', hr⟩

end Rewire
