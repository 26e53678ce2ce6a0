import Mathlib
import Rewire.Proofs.Pattern.Edit
import Rewire.Proofs.Pattern.Injection
import Rewire.Proofs.Redirect.Calls
import Rewire.Rule.Basic

/-!
# What rules leave

A rule changes the methods in which it finds its pattern, flags them as modified and leaves the
others alone. The instructions of a changed method are its own and those the rule injects. This file
shows

* what steps with generators do (`Generating.lift_eq_ok`, `Generating.run_ofPatching`);
* what becomes of each method of a class (`PatchRule.edited`), when the generator of the rule runs
  for all of them in turn (`PatchRule.run_patch`);
* what may have become of a method (`Method.PatchedFrom`), for one rule and for several
  (`Method.PatchedFrom.trans`);
* that rules do this to every method of a class (`PatchRule.patched_of_applyAll`).
-/

namespace Rewire

/-! ## 1. Steps with generators -/

/-- The notices of a step that goes through a list of them are kept in their order. -/
theorem forM_note (notices : List Notice) (log : Log) :
    notices.forM Logged.note log = (.ok (), notices.foldl Array.push log) := by
  induction notices generalizing log with
  | nil => rfl
  | cons n rest ih => exact ih (log.push n)

/-- A patching is reported with the class it left, or with its failure. -/
theorem Patching.run_report (done : Patching) (log : Log) :
    done.report log =
      (done.result.map fun _ => done.body, done.notices.foldl Array.push log) := by
  unfold report
  simp only [bind, ExceptT.bind, ExceptT.mk, StateT.bind, forM_note]
  cases hresult : done.result <;> rfl

namespace Generating

variable {σ α : Type} {log log' : Log} {s s' : σ}

/-- A step with a log leaves the state of generators alone. -/
theorem lift_eq_ok {x : Logged α} {a : α} :
    (liftM x : Generating σ α) (log, s) = (.ok a, (log', s')) ↔
      x log = (.ok a, log') ∧ s = s' := by
  show ((x log).1, ((x log).2, s)) = _ ↔ _
  rw [Prod.ext_iff, Prod.ext_iff, Prod.ext_iff, and_assoc]

/-- Rules are reported with the class they left, or with the failure of one of them. -/
theorem run_ofPatching (x : StateM σ Patching) (log : Log) (s : σ) :
    ofPatching x (log, s) =
      ((StateT.run x s).1.result.map fun _ => (StateT.run x s).1.body,
        ((StateT.run x s).1.notices.foldl Array.push log, (StateT.run x s).2)) := by
  show (((StateT.run x s).1.report log).1, (((StateT.run x s).1.report log).2, (StateT.run x s).2)) = _
  rw [Patching.run_report]

end Generating

/-! ## 2. The methods of a class -/

namespace PatchRule

variable {Source σ : Type} {r : PatchRule (Generator σ)} {s : σ} {n k : Nat} {m : Method}
  {ms : List Method}

/-- The generator of a rule; a rule that deletes has none to run. -/
def generator (r : PatchRule (Generator σ)) : Generator σ :=
  match r.action with
  | .inject generator => generator
  | .remove => .always []

/-- The occurrences a rule finds in a method. -/
def occurrences (r : PatchRule Source) (m : Method) : List Match :=
  if m.name = r.methodName then m.matches r.pattern else []

/-- What a rule makes of a method, when its generator has run `n` times since the state `s`. -/
def edited (r : PatchRule (Generator σ)) (s : σ) (n : Nat) (m : Method) : Bool × Method :=
  if m.name = r.methodName then
    match r.action with
    | .inject generator => m.inject r.pattern fun k => generator.output s (n + k)
    | .remove => m.remove r.pattern
  else (false, m)

/-- What a rule makes of methods, one after the other. -/
def editedAll (r : PatchRule (Generator σ)) (s : σ) (n : Nat) : List Method → List (Bool × Method)
  | [] => []
  | m :: rest => r.edited s n m :: r.editedAll s (n + (r.occurrences m).length) rest

/-- **The generator of a rule** runs once for each occurrence the rule finds in a method. -/
theorem run_applyIfNamed (r : PatchRule (Generator σ)) (s : σ) (n : Nat) (m : Method) :
    StateT.run (r.applyIfNamed m) (r.generator.after s n) =
      (r.edited s n m, r.generator.after s (n + (r.occurrences m).length)) := by
  unfold applyIfNamed edited occurrences
  split
  · unfold applyTo generator
    cases r.action with
    | inject generator =>
      rw [Method.run_injectBy, Generator.after_after, Generator.output_after]
    | remove =>
      simp only [Generator.after_always]
      rfl
  · rfl

theorem run_mapM_applyIfNamed (r : PatchRule (Generator σ)) (s : σ) (n : Nat) (ms : List Method) :
    StateT.run (ms.mapM r.applyIfNamed) (r.generator.after s n) =
      (r.editedAll s n ms, r.generator.after s (n + (ms.flatMap r.occurrences).length)) := by
  induction ms generalizing n with
  | nil => rfl
  | cons m rest ih =>
    rw [List.mapM_cons, StateT.run_bind, run_applyIfNamed]
    show StateT.run (rest.mapM r.applyIfNamed >>= fun others => pure (r.edited s n m :: others))
      (r.generator.after s (n + (r.occurrences m).length)) = _
    rw [StateT.run_bind, ih, List.flatMap_cons, List.length_append, ← Nat.add_assoc]
    rfl

/-- What a rule makes of a class. -/
def patched (r : PatchRule (Generator σ)) (s : σ) (c : ClassBody) : Patching where
  body := { c with methods := (r.editedAll s 0 c.methods).map Prod.snd }
  notices := ((r.editedAll s 0 c.methods).filter Prod.fst).map fun (_, m) =>
    .ruleApplied r.id ⟨c.name, m.name, m.descriptor⟩
  result := if (r.editedAll s 0 c.methods).any Prod.fst then .ok () else fail r.nothingFound

theorem run_patch (r : PatchRule (Generator σ)) (s : σ) (c : ClassBody) :
    StateT.run (r.patch c) s =
      (r.patched s c, r.generator.after s (c.methods.flatMap r.occurrences).length) := by
  have hrun := r.run_mapM_applyIfNamed s 0 c.methods
  rw [Nat.zero_add] at hrun
  rw [patch, StateT.run_bind, show s = r.generator.after s 0 from rfl, hrun]
  rfl

/-- A rule that fails is the last one. -/
theorem run_patchAll_of_error {c : ClassBody} {f : Failure} (h : (r.patched s c).result = .error f)
    (rest : List (PatchRule (Generator σ))) :
    StateT.run (patchAll (r :: rest) c) s =
      (r.patched s c, r.generator.after s (c.methods.flatMap r.occurrences).length) := by
  rw [patchAll, StateT.run_bind, run_patch]
  dsimp only [bind]
  rw [h]
  rfl

/-- A rule that does not fail leaves the class to the rules behind it. -/
theorem run_patchAll_of_ok {c : ClassBody} (h : (r.patched s c).result = .ok ())
    {rest : List (PatchRule (Generator σ))} {later : Patching} {s' : σ}
    (hrest : StateT.run (patchAll rest (r.patched s c).body)
      (r.generator.after s (c.methods.flatMap r.occurrences).length) = (later, s')) :
    StateT.run (patchAll (r :: rest) c) s =
      ({ later with notices := (r.patched s c).notices ++ later.notices }, s') := by
  rw [patchAll, StateT.run_bind, run_patch]
  dsimp only [bind]
  rw [h]
  show StateT.run (patchAll rest (r.patched s c).body >>= _) _ = _
  rw [StateT.run_bind, hrest]
  rfl

theorem forall₂_editedAll {R : Method → Bool × Method → Prop} (h : ∀ m n, R m (r.edited s n m))
    (n : Nat) (ms : List Method) : List.Forall₂ R ms (r.editedAll s n ms) := by
  induction ms generalizing n with
  | nil => exact .nil
  | cons m rest ih => exact .cons (h m n) (ih _)

end PatchRule

/-! ## 3. Methods that were patched -/

/-- What a method is after rules that inject only instructions with fitting opcodes. -/
structure Method.PatchedFrom (m m' : Method) : Prop where
  same : m'.modified = false → m' = m
  opcodeFits : (∀ i ∈ m.insns, i.OpcodeFits) → ∀ i ∈ m'.insns, i.OpcodeFits

/-- Whether a rule injects only instructions whose opcodes belong to their forms. -/
def PatchRule.OpcodesFit {σ : Type} (r : PatchRule (Generator σ)) : Prop :=
  ∀ generator, r.action = .inject generator → ∀ s, ∀ i ∈ (StateT.run generator s).1, i.OpcodeFits

namespace Method

variable {m m' m'' : Method} {pattern : List Predicate}

protected theorem PatchedFrom.refl (m : Method) : m.PatchedFrom m :=
  ⟨fun _ => rfl, fun form => form⟩

theorem PatchedFrom.trans (h : m.PatchedFrom m') (h' : m'.PatchedFrom m'') :
    m.PatchedFrom m'' := by
  refine ⟨fun hmodified => ?_, fun form => h'.opcodeFits (h.opcodeFits form)⟩
  have heq := h'.same hmodified
  rw [heq] at hmodified ⊢
  exact h.same hmodified

/-- A method that was changed is flagged, and consists of nodes from before and of instructions
    with fitting opcodes. -/
theorem patchedFrom_of_nodes (hmodified : m'.modified = true)
    (hnodes : ∀ i, .insn i ∈ m'.nodes.toList → .insn i ∈ m.nodes.toList ∨ i.OpcodeFits) :
    m.PatchedFrom m' := by
  refine ⟨fun h => ?_, fun form i hi => ?_⟩
  · rw [hmodified] at h
    cases h
  · rcases hnodes i (Method.mem_insns_iff.1 hi) with hold | hfits
    · exact form i (Method.mem_insns_iff.2 hold)
    · exact hfits

theorem patchedFrom_inject {generate : Nat → List Insn}
    (form : ∀ k, ∀ i ∈ generate k, i.OpcodeFits) :
    m.PatchedFrom (m.inject pattern generate).2 := by
  unfold inject
  simp only
  split
  · exact .refl m
  · refine patchedFrom_of_nodes rfl fun i hi => ?_
    rcases mem_insertAfter (Array.mem_toList_iff.1 hi) with hold | ⟨k, inserted, hget, i', hi', heq⟩
    · exact .inl (Array.mem_toList_iff.2 hold)
    · cases heq
      right
      refine of_insertions (P := fun insns => ∀ i ∈ insns, i.OpcodeFits) (fun entry hentry => ?_)
        hget i hi'
      obtain ⟨pair, -, rfl⟩ := List.mem_map.1 hentry
      exact form pair.2

theorem patchedFrom_remove : m.PatchedFrom (m.remove pattern).2 := by
  unfold remove
  simp only
  split
  · exact .refl m
  · refine patchedFrom_of_nodes rfl fun i hi => .inl ?_
    rw [List.toList_toArray] at hi
    obtain ⟨⟨node, gone⟩, hnode, rfl⟩ := List.mem_map.1 hi
    exact (List.of_mem_zip (List.mem_filter.1 hnode).1).1

end Method

/-! ## 4. Classes -/

namespace PatchRule

variable {σ : Type} {r : PatchRule (Generator σ)} {rules : List (PatchRule (Generator σ))}
  {c c' : ClassBody} {log log' : Log} {s s' : σ}

theorem patchedFrom_edited (form : r.OpcodesFit) (s : σ) (m : Method) (n : Nat) :
    m.PatchedFrom (r.edited s n m).2 := by
  unfold edited
  split
  · cases haction : r.action with
    | inject generator => exact Method.patchedFrom_inject fun _ => form generator haction _
    | remove => exact Method.patchedFrom_remove
  · exact .refl m

/-- A rule patches every method of a class, also where it fails in the end. -/
theorem patchedFrom_patched (form : r.OpcodesFit) (s : σ) (c : ClassBody) :
    List.Forall₂ Method.PatchedFrom c.methods (r.patched s c).body.methods :=
  List.forall₂_map_right_iff.2 (forall₂_editedAll (fun m n => patchedFrom_edited form s m n) 0 _)

/-- **Rules patch every method of a class**, whether they come to an end or one of them fails. -/
theorem patchedFrom_patchAll (form : ∀ r ∈ rules, r.OpcodesFit) (s : σ) (c : ClassBody) :
    List.Forall₂ Method.PatchedFrom c.methods
      (StateT.run (patchAll rules c) s).1.body.methods := by
  induction rules generalizing s c with
  | nil => exact List.forall₂_same.2 fun m _ => .refl m
  | cons r rest ih =>
    have hfirst := patchedFrom_patched (form r List.mem_cons_self) s c
    have hrest := ih (fun r hr => form r (List.mem_cons_of_mem _ hr))
      (r.generator.after s (c.methods.flatMap r.occurrences).length) (r.patched s c).body
    cases hresult : (r.patched s c).result with
    | error f =>
      rw [run_patchAll_of_error hresult]
      exact hfirst
    | ok =>
      rw [run_patchAll_of_ok hresult rfl]
      exact forall₂_comp hfirst hrest fun _ _ _ => Method.PatchedFrom.trans

theorem patched_of_applyAll (form : ∀ r ∈ rules, r.OpcodesFit)
    (h : applyAll rules c (log, s) = (.ok c', (log', s'))) :
    List.Forall₂ Method.PatchedFrom c.methods c'.methods := by
  have hpatched := patchedFrom_patchAll form s c
  rw [applyAll, Generating.run_ofPatching] at h
  obtain ⟨_, -, rfl⟩ := map_eq_ok.1 (Prod.ext_iff.1 h).1
  exact hpatched

end PatchRule

end Rewire
