import Mathlib
import Rewire.Proofs.ClassFile.Framed

/-!
# What writing back leaves alone

Writing a class back changes the attributes of modified methods, one of each, and adds to the pool.
This file fixes

* what becomes of an entry that gets new code (`MemberInfo.setCode_differsIn`);
* that all else in the class file stays as it was (`ClassFile.untouched_of_apply`).
-/

namespace Rewire

open ConstantPool

/-! ## 1. One entry -/

/-- Whether an entry differs from another one in an attribute with the given name slot and in nothing
    else: the body of the first such attribute, or, where there is none, a new one after all
    others. -/
structure MemberInfo.DiffersIn (slot : UInt16) (entry entry' : MemberInfo) : Prop where
  flags : entry'.flags = entry.flags
  name : entry'.name = entry.name
  descriptor : entry'.descriptor = entry.descriptor
  attributes : (∃ before old body after, entry.attributes = before ++ ⟨slot, old⟩ :: after ∧
      (∀ b ∈ before, b.name ≠ slot) ∧ entry'.attributes = before ++ ⟨slot, body⟩ :: after) ∨
    (∀ b ∈ entry.attributes, b.name ≠ slot) ∧
      ∃ body, entry'.attributes = entry.attributes ++ [⟨slot, body⟩]

/-- **An entry that gets new code** differs in its code attribute. -/
theorem MemberInfo.setCode_differsIn (entry : MemberInfo) (codeName : UInt16) (body : Bytes) :
    entry.DiffersIn codeName (entry.setCode codeName body) where
  flags := rfl
  name := rfl
  descriptor := rfl
  attributes := by
    have hother : ∀ {attributes : List RawAttribute},
        (∀ b ∈ attributes, (b.name == codeName) = false) → ∀ b ∈ attributes, b.name ≠ codeName :=
      fun h b hb => beq_eq_false_iff_ne.1 (h b hb)
    rcases replaceFirstOrAppend_cases (fun a => a.name == codeName) ⟨codeName, body⟩
      entry.attributes with ⟨before, ⟨name, old⟩, after, heq, hbefore, hold, hnew⟩ | ⟨hall, hnew⟩
    · obtain rfl : name = codeName := beq_iff_eq.1 hold
      exact .inl ⟨before, old, body, after, heq, hother hbefore, hnew⟩
    · exact .inr ⟨hother hall, body, hnew⟩

/-! ## 2. The class file -/

namespace ClassFile

/-- **Writing back touches nothing else.** Of a class file that was read, only the methods and the
    pool change. The pool grows at its end, so each slot that held a constant still holds it.
    The methods keep their places; the entry of a method that was not modified is the same, and the
    entry of a modified one differs in one attribute, which is named `Code`. -/
theorem untouched_of_apply {data : Bytes} {c c' : ClassFile} {edited : ClassBody}
    {dropped : List DroppedAttributes} {log log' : Log} (hread : ClassFile.read data = .ok c)
    (h : c.apply edited log = (.ok (c', dropped), log')) :
    c' = { c with methods := c'.methods, pool := c'.pool } ∧
      c.pool.slots.toList <+: c'.pool.slots.toList ∧
      (∀ i k, c.pool.get i = .ok k → c'.pool.get i = .ok k) ∧
      edited.methods.length = c.methods.length ∧
      ∃ codeName, c'.pool.text codeName = .ok AttributeName.code ∧
        List.Forall₂ (fun (x : MemberInfo × Method) entry' =>
          (x.2.modified = false → entry' = x.1) ∧
            (x.2.modified = true → x.1.DiffersIn codeName entry'))
          (c.methods.zip edited.methods) c'.methods := by
  obtain ⟨codeName, -, hgrow, holds, heq, hlength, hmethods⟩ :=
    apply_eq_ok (wellFormed_of_read hread) h
  refine ⟨heq, hgrow.slots, fun i k hk => hgrow.get hk, hlength, codeName, holds.text,
    hmethods.imp fun x entry' ⟨l, written⟩ => ⟨written.kept, fun hmodified => ?_⟩⟩
  obtain ⟨_, _, a, -, -, -, -, rfl⟩ := written.written hmodified
  exact x.1.setCode_differsIn codeName a.body

/-- The class without the call differs in the code of its method. -/
theorem untouched_of_apply_skippedCall : ∃ data codeName entry',
    ClassFile.read data = .ok skippedCall.classFile ∧
      skippedCall.classFile.apply skippedCall.edited #[] = (.ok (skippedCall.written, []), #[]) ∧
      skippedCall.written.methods = [entry'] ∧
      skippedCall.written.pool.text codeName = .ok AttributeName.code ∧
      skippedCall.entry.DiffersIn codeName entry' := by
  obtain ⟨data, hdata⟩ := skippedCall.read_classFile
  have happly := skippedCall.apply_eq #[]
  obtain ⟨-, -, -, -, codeName, hname, hmethods⟩ := untouched_of_apply hdata happly
  cases hmethods with
  | cons hentry _ => exact ⟨data, codeName, _, hdata, happly, rfl, hname, hentry.2 rfl⟩

end ClassFile

end Rewire
