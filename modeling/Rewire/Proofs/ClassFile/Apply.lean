import Mathlib
import Rewire.ClassFile.Apply
import Rewire.Proofs.ClassFile.Codec
import Rewire.Proofs.Code.Growth
import Rewire.Proofs.Code.RoundTrip

/-!
# Writing edited methods back

A class file is written back method by method, with one pool that grows from each to the next. This
file shows

* what a run over a list does at each of its elements (`Assembly.ran_of_mapM`);
* what becomes of one entry: it is kept, or gets the body that was assembled
  (`applyMethod_eq_ok`, `MemberInfo.WrittenAs`);
* what becomes of the class (`ClassFile.apply_eq_ok`);
* where the first attribute named `Code` is found (`findAttribute_eq_some`), and that a new body goes
  in its place, or behind it if its name has another slot (`FirstCode.replaced`).
-/

namespace Rewire

open ConstantPool

/-! ## 1. Runs over lists -/

/-- One step of a run over a list: it went from a pool grown from the first one to a pool that the
    last one is grown from. -/
def Assembly.Ran {α β : Type} (f : α → Assembly β) (p q : ConstantPool) (a : α) (b : β) : Prop :=
  ∃ p₁ log₁ q₁ log₁', p₁.WellFormed ∧ p.GrowsTo p₁ ∧ f a p₁ log₁ = ((.ok b, q₁), log₁') ∧
    q₁.GrowsTo q

theorem Assembly.ran_of_mapM {α β : Type} {f : α → Assembly β}
    (hf : ∀ a, Assembly.Finds (f a) fun _ _ => True) {l : List α} {p q : ConstantPool}
    {log log' : Log} {bs : List β} (wf : p.WellFormed)
    (h : l.mapM f p log = ((.ok bs, q), log')) :
    q.WellFormed ∧ p.GrowsTo q ∧ List.Forall₂ (Ran f p q) l bs := by
  induction l generalizing p log log' bs with
  | nil =>
    obtain ⟨rfl, rfl, -⟩ := Assembly.pure_eq_ok.1 h
    exact ⟨wf, .refl p, .nil⟩
  | cons a rest ih =>
    rw [List.mapM_cons] at h
    obtain ⟨b, p₁, log₁, hb, h₁⟩ := Assembly.bind_eq_ok.1 h
    obtain ⟨more, p₂, log₂, hmore, h₂⟩ := Assembly.bind_eq_ok.1 h₁
    obtain ⟨rfl, rfl, -⟩ := Assembly.pure_eq_ok.1 h₂
    obtain ⟨wf₁, grow₁, -⟩ := hf a p log b p₁ log₁ wf hb
    obtain ⟨wf₂, grow₂, hrest⟩ := ih wf₁ hmore
    refine ⟨wf₂, grow₁.trans grow₂, .cons ⟨p, log, p₁, log₁, wf, .refl p, hb, grow₂⟩ ?_⟩
    refine hrest.imp fun a' b' ⟨q₁, log₁, q₂, log₂, hwf, hgrow, hrun, hlast⟩ => ?_
    exact ⟨q₁, log₁, q₂, log₂, hwf, grow₁.trans hgrow, hrun, hlast⟩

/-! ## 2. Writing one method -/

section Method

variable {version : UInt16} {owner : String} {codeName : UInt16} {entry : MemberInfo} {m : Method}
  {p q : ConstantPool} {log log' : Log} {r : MemberInfo × Option DroppedAttributes}

/-- A method that is written back: its entry is kept, or gets the assembled body. From the version on
    that requires frames, that body has not lost any. -/
theorem applyMethod_eq_ok (h : applyMethod version owner codeName entry m p log =
      ((.ok r, q), log')) :
    m.modified = false ∧ r.1 = entry ∧ p = q ∨
      m.modified = true ∧ ∃ a log₁, assemble m p log = ((.ok a, q), log₁) ∧
        r.1 = entry.setCode codeName a.body ∧
        (framesRequiredSince ≤ version → AttributeName.stackMap ∉ a.dropped) := by
  unfold applyMethod at h
  split at h
  · rename_i hmodified
    obtain ⟨rfl, rfl, -⟩ := Assembly.pure_eq_ok.1 h
    exact .inl ⟨by simpa using hmodified, rfl, rfl⟩
  · rename_i hmodified
    right
    obtain ⟨a, p₁, log₁, ha, h₁⟩ := Assembly.bind_eq_ok.1 h
    rw [Assembly.during_eq_ok] at ha
    simp only at h₁
    split at h₁
    · cases h₁
    · rename_i hkept
      have hframes := fun hversion hlost => hkept ⟨hversion, hlost⟩
      split at h₁
      · obtain ⟨rfl, rfl, -⟩ := Assembly.pure_eq_ok.1 h₁
        exact ⟨by simpa using hmodified, a, log₁, ha, rfl, hframes⟩
      · obtain ⟨u, p₂, log₂, hnote, h₂⟩ := Assembly.bind_eq_ok.1 h₁
        obtain ⟨rfl, -⟩ := Assembly.note_eq_ok.1 hnote
        obtain ⟨rfl, rfl, -⟩ := Assembly.pure_eq_ok.1 h₂
        exact ⟨by simpa using hmodified, a, log₁, ha, rfl, hframes⟩

/-- A modified method that loses nothing is written back. -/
theorem applyMethod_of_assemble {a : Assembled} (hmodified : m.modified = true)
    (ha : assemble m p log = ((.ok a, q), log')) (hdropped : a.dropped = []) :
    applyMethod version owner codeName entry m p log =
      ((.ok (entry.setCode codeName a.body, none), q), log') := by
  unfold applyMethod
  rw [hmodified, if_neg (by decide)]
  refine Assembly.bind_eq_ok.2 ⟨a, q, log', Assembly.during_eq_ok.2 ha, ?_⟩
  simp only [hdropped]
  rw [if_neg fun h => List.not_mem_nil h.2]
  rfl

theorem finds_applyMethod (version : UInt16) (owner : String) (codeName : UInt16)
    (entry : MemberInfo) (m : Method) :
    Assembly.Finds (applyMethod version owner codeName entry m) fun _ _ => True := by
  intro p log r q log' wf h
  rcases applyMethod_eq_ok h with ⟨-, -, rfl⟩ | ⟨-, a, log₁, ha, -⟩
  · exact ⟨wf, .refl p, trivial⟩
  · obtain ⟨hwf, hgrow, -⟩ := finds_assemble m p log a q log₁ wf ha
    exact ⟨hwf, hgrow, trivial⟩

end Method

/-- What became of the entry of a method that was laid out as `l` if it was modified. -/
structure MemberInfo.WrittenAs (p q : ConstantPool) (codeName : UInt16) (m : Method)
    (entry entry' : MemberInfo) (l : Layout) : Prop where
  kept : m.modified = false → entry' = entry
  written : m.modified = true → ∃ p₁ q₁ a, p.GrowsTo p₁ ∧ layOut m p₁ = (.ok l, q₁) ∧
    LaidOut m q l ∧ Assembled.IsOf m l q a ∧ entry' = entry.setCode codeName a.body

/-! ## 3. Writing a class -/

theorem onPool_eq_ok {α : Type} {x : Assembly α} {p q : ConstantPool} {a : α} {log log' : Log} :
    x.onPool p log = (.ok (a, q), log') ↔ x p log = ((.ok a, q), log') := by
  unfold Assembly.onPool
  simp only [ExceptT.mk]
  rcases x p log with ⟨⟨e | a', q'⟩, log₁⟩
  · constructor
    · intro h
      cases h
    · intro h
      cases h
  · constructor
    · intro h
      cases h
      rfl
    · intro h
      cases h
      rfl

/-- Writing a class back goes through its methods one after another, with the slot of the name
    `Code`. -/
theorem ClassFile.ran_of_apply {c c' : ClassFile} {edited : ClassBody} {log log' : Log}
    {dropped : List DroppedAttributes} (wf : c.pool.WellFormed)
    (h : c.apply edited log = (.ok (c', dropped), log')) :
    ∃ codeName results, c'.pool.WellFormed ∧ c.pool.GrowsTo c'.pool ∧
      c'.pool.HoldsText AttributeName.code codeName ∧
      c' = { c with methods := results.map Prod.fst, pool := c'.pool } ∧
      edited.methods.length = c.methods.length ∧
      List.Forall₂ (Assembly.Ran (fun x : MemberInfo × Method =>
        applyMethod c.majorVersion edited.name codeName x.1 x.2) c.pool c'.pool)
        (c.methods.zip edited.methods) results := by
  unfold ClassFile.apply at h
  split at h
  · cases h
  rename_i hlength
  obtain ⟨⟨results, pool⟩, log₁, hrun, h₁⟩ := Step.bind_eq_ok.1 h
  obtain ⟨heq, -⟩ := Step.pure_eq_ok.1 h₁
  cases heq
  obtain ⟨codeName, p₁, log₂, hstep, hsteps⟩ := Assembly.bind_eq_ok.1 (onPool_eq_ok.1 hrun)
  obtain ⟨hname, rfl⟩ := Assembly.liftStep_eq_ok.1 hstep
  obtain ⟨wf₁, grow₁, holds⟩ := (finds_internText AttributeName.code).of_ok wf hname
  obtain ⟨wf', grow', hran⟩ := Assembly.ran_of_mapM
    (fun x : MemberInfo × Method => finds_applyMethod _ _ _ x.1 x.2) wf₁ hsteps
  refine ⟨codeName, results, wf', grow₁.trans grow', lasting_holdsText _ _ _ _ grow' holds, rfl,
    by simpa using hlength, hran.imp fun x r ⟨p₂, log₃, q₂, log₄, wf₂, grow₂, hstep, grow₃⟩ => ?_⟩
  exact ⟨p₂, log₃, q₂, log₄, wf₂, grow₁.trans grow₂, hstep, grow₃⟩

/-- **A class is written back** method by method, with the slot of the name `Code`. -/
theorem ClassFile.apply_eq_ok {c c' : ClassFile} {edited : ClassBody} {log log' : Log}
    {dropped : List DroppedAttributes} (wf : c.pool.WellFormed)
    (h : c.apply edited log = (.ok (c', dropped), log')) :
    ∃ codeName, c'.pool.WellFormed ∧ c.pool.GrowsTo c'.pool ∧
      c'.pool.HoldsText AttributeName.code codeName ∧
      c' = { c with methods := c'.methods, pool := c'.pool } ∧
      edited.methods.length = c.methods.length ∧
      List.Forall₂ (fun (x : MemberInfo × Method) entry' =>
        ∃ l, x.1.WrittenAs c.pool c'.pool codeName x.2 entry' l) (c.methods.zip edited.methods)
        c'.methods := by
  obtain ⟨codeName, results, wf', hpool, holds, heq, hlength, hran⟩ := ClassFile.ran_of_apply wf h
  have hmethods : c'.methods = results.map Prod.fst := congrArg ClassFile.methods heq
  refine ⟨codeName, wf', hpool, holds, hmethods ▸ heq, hlength, ?_⟩
  rw [hmethods, List.forall₂_map_right_iff]
  refine hran.imp fun x r ⟨p₂, log₃, q₂, log₄, wf₂, grow₂, hstep, grow₃⟩ => ?_
  rcases applyMethod_eq_ok hstep with ⟨hkept, heq, -⟩ | ⟨hmodified, a, log₅, ha, heq, -⟩
  · refine ⟨⟨[], ∅, #[]⟩, fun _ => heq, fun h => ?_⟩
    rw [hkept] at h
    cases h
  · obtain ⟨l, q₁, hl, -, -, laid, hof⟩ := isOf_of_assemble wf₂ ha
    refine ⟨l, fun h => ?_, fun _ =>
      ⟨p₂, q₁, a, grow₂, hl, laid.growsTo grow₃, hof.growsTo grow₃, heq⟩⟩
    rw [hmodified] at h
    cases h

/-- A class with one method, which is modified and loses nothing, is written back. -/
theorem ClassFile.apply_of_assemble {c : ClassFile} {edited : ClassBody} {entry : MemberInfo}
    {m : Method} {codeName : UInt16} {a : Assembled} {p q : ConstantPool} {log log' : Log}
    (hentry : c.methods = [entry]) (hm : edited.methods = [m])
    (hname : internText AttributeName.code c.pool = (.ok codeName, p)) (hmodified : m.modified = true)
    (ha : assemble m p log = ((.ok a, q), log')) (hdropped : a.dropped = []) :
    c.apply edited log =
      (.ok ({ c with methods := [entry.setCode codeName a.body], pool := q }, []), log') := by
  have happly : applyMethod c.majorVersion edited.name codeName entry m p log =
      ((.ok (entry.setCode codeName a.body, none), q), log') :=
    applyMethod_of_assemble hmodified ha hdropped
  have hsteps : c.applySteps edited c.pool log =
      ((.ok [(entry.setCode codeName a.body, none)], q), log') := by
    refine Assembly.bind_eq_ok.2 ⟨codeName, p, log, Assembly.liftStep_eq_ok.2 ⟨hname, rfl⟩, ?_⟩
    rw [hentry, hm]
    show (([(entry, m)]).mapM _ : Assembly _) p log = _
    rw [List.mapM_cons]
    exact Assembly.bind_eq_ok.2 ⟨_, _, _, happly, rfl⟩
  have hlength : edited.methods.length = c.methods.length := by
    rw [hentry, hm]
    rfl
  unfold ClassFile.apply
  rw [if_neg (not_not_intro hlength)]
  exact Step.bind_eq_ok.2 ⟨_, _, onPool_eq_ok.2 hsteps, rfl⟩

/-! ## 4. The first code attribute -/

/-- Whether an attribute is the first one named `Code`, with others before and after it. -/
structure FirstCode (pool : ConstantPool) (attributes before : List RawAttribute)
    (a : RawAttribute) (after : List RawAttribute) : Prop where
  eq : attributes = before ++ a :: after
  other : ∀ b ∈ before, ∃ s, pool.text b.name = .ok s ∧ s ≠ AttributeName.code
  code : pool.text a.name = .ok AttributeName.code

/-- Whether every attribute has a name, but none is named `Code`. -/
def NoCode (pool : ConstantPool) (attributes : List RawAttribute) : Prop :=
  ∀ b ∈ attributes, ∃ s, pool.text b.name = .ok s ∧ s ≠ AttributeName.code

section Attributes

variable {c c' : ClassFile} {pool : ConstantPool} {attributes before after : List RawAttribute}
  {a new : RawAttribute}

theorem findAttribute_eq_none :
    c.findAttribute AttributeName.code attributes = .ok none ↔ NoCode c.pool attributes := by
  induction attributes with
  | nil => exact ⟨fun _ b hb => (List.not_mem_nil hb).elim, fun _ => rfl⟩
  | cons b rest ih =>
    unfold ClassFile.findAttribute
    constructor
    · intro h
      obtain ⟨s, hs, h⟩ := bind_eq_ok.1 h
      split at h
      · cases h
      · rename_i hne
        intro d hd
        rcases List.mem_cons.1 hd with rfl | hd
        · exact ⟨s, hs, hne⟩
        · exact ih.1 h d hd
    · intro h
      obtain ⟨s, hs, hne⟩ := h b List.mem_cons_self
      refine bind_eq_ok.2 ⟨s, hs, ?_⟩
      rw [if_neg hne]
      exact ih.2 fun d hd => h d (List.mem_cons_of_mem b hd)

theorem findAttribute_eq_some :
    c.findAttribute AttributeName.code attributes = .ok (some a) ↔
      ∃ before after, FirstCode c.pool attributes before a after := by
  induction attributes with
  | nil =>
    constructor
    · intro h
      cases h
    · rintro ⟨before, after, heq, -, -⟩
      cases before <;> cases heq
  | cons b rest ih =>
    unfold ClassFile.findAttribute
    constructor
    · intro h
      obtain ⟨s, hs, h⟩ := bind_eq_ok.1 h
      split at h
      · rename_i heq
        cases h
        exact ⟨[], rest, rfl, fun d hd => (List.not_mem_nil hd).elim, heq ▸ hs⟩
      · rename_i hne
        obtain ⟨before, after, heq, other, code⟩ := ih.1 h
        refine ⟨b :: before, after, by rw [heq]; rfl, fun d hd => ?_, code⟩
        rcases List.mem_cons.1 hd with rfl | hd
        · exact ⟨s, hs, hne⟩
        · exact other d hd
    · rintro ⟨before, after, heq, other, code⟩
      cases before with
      | nil =>
        cases heq
        refine bind_eq_ok.2 ⟨_, code, ?_⟩
        rw [if_pos rfl]
        rfl
      | cons d before =>
        cases heq
        obtain ⟨s, hs, hne⟩ := other b List.mem_cons_self
        refine bind_eq_ok.2 ⟨s, hs, ?_⟩
        rw [if_neg hne]
        exact ih.2 ⟨before, after, rfl, fun d hd => other d (List.mem_cons_of_mem b hd), code⟩

/-- There is only one first code attribute. -/
theorem FirstCode.unique (h : FirstCode c.pool attributes before a after)
    {before' after' : List RawAttribute} {b : RawAttribute}
    (h' : FirstCode c.pool attributes before' b after') : b = a := by
  have hsame := findAttribute_eq_some.2 ⟨before', after', h'⟩
  rw [findAttribute_eq_some.2 ⟨before, after, h⟩] at hsame
  cases hsame
  rfl

theorem FirstCode.growsTo {p q : ConstantPool} (h : FirstCode p attributes before a after)
    (hpq : p.GrowsTo q) : FirstCode q attributes before a after := by
  refine ⟨h.eq, fun b hb => ?_, hpq.text h.code⟩
  obtain ⟨s, hs, hne⟩ := h.other b hb
  exact ⟨s, hpq.text hs, hne⟩

theorem NoCode.growsTo {p q : ConstantPool} (h : NoCode p attributes) (hpq : p.GrowsTo q) :
    NoCode q attributes := by
  intro b hb
  obtain ⟨s, hs, hne⟩ := h b hb
  exact ⟨s, hpq.text hs, hne⟩

theorem replaceFirstOrAppend_cons {α : Type} (p : α → Bool) (new b : α) (rest : List α) :
    replaceFirstOrAppend p new (b :: rest) =
      if p b then new :: rest else b :: replaceFirstOrAppend p new rest := by
  unfold replaceFirstOrAppend
  rw [List.findIdx?_cons]
  cases p b with
  | true => rfl
  | false =>
    cases rest.findIdx? p with
    | none => rfl
    | some i => rfl

/-- The first element that satisfies `p` is replaced, or the new one follows all others. -/
theorem replaceFirstOrAppend_cases {α : Type} (p : α → Bool) (new : α) (l : List α) :
    (∃ before old after, l = before ++ old :: after ∧ (∀ b ∈ before, p b = false) ∧
      p old = true ∧ replaceFirstOrAppend p new l = before ++ new :: after) ∨
    (∀ b ∈ l, p b = false) ∧ replaceFirstOrAppend p new l = l ++ [new] := by
  induction l with
  | nil => exact .inr ⟨List.forall_mem_nil _, rfl⟩
  | cons b rest ih =>
    rw [replaceFirstOrAppend_cons]
    by_cases hb : p b = true
    · rw [if_pos hb]
      exact .inl ⟨[], b, rest, rfl, List.forall_mem_nil _, hb, rfl⟩
    · have hb' : p b = false := Bool.eq_false_iff.2 hb
      rw [if_neg hb]
      rcases ih with ⟨before, old, after, rfl, hbefore, hold, heq⟩ | ⟨hall, heq⟩
      · exact .inl ⟨b :: before, old, after, rfl, List.forall_mem_cons.2 ⟨hb', hbefore⟩, hold,
          by rw [heq]; rfl⟩
      · exact .inr ⟨List.forall_mem_cons.2 ⟨hb', hall⟩, by rw [heq]; rfl⟩

theorem replaceFirstOrAppend_append {α : Type} {p : α → Bool} {new : α} {before rest : List α}
    (h : ∀ b ∈ before, p b = false) :
    replaceFirstOrAppend p new (before ++ rest) = before ++ replaceFirstOrAppend p new rest := by
  induction before with
  | nil => rfl
  | cons b before ih =>
    rw [List.cons_append, replaceFirstOrAppend_cons, h b List.mem_cons_self, if_neg (by simp),
      ih fun d hd => h d (List.mem_cons_of_mem b hd)]
    rfl

/-- Where a new code attribute goes: in place of the first one, if that has the slot of the name,
    otherwise somewhere after it. -/
theorem FirstCode.replaced (h : FirstCode pool attributes before a after) {codeName : UInt16}
    (hname : pool.text codeName = .ok AttributeName.code) (body : Bytes) :
    replaceFirstOrAppend (fun b => b.name == codeName) ⟨codeName, body⟩ attributes =
      if a.name = codeName then before ++ ⟨codeName, body⟩ :: after
      else before ++ a :: replaceFirstOrAppend (fun b => b.name == codeName) ⟨codeName, body⟩ after := by
  rw [h.eq, replaceFirstOrAppend_append, replaceFirstOrAppend_cons]
  · by_cases heq : a.name = codeName
    · rw [if_pos heq, if_pos (beq_iff_eq.2 heq)]
    · rw [if_neg heq, if_neg (mt beq_iff_eq.1 heq)]
  · intro b hb
    obtain ⟨s, hs, hne⟩ := h.other b hb
    rw [beq_eq_false_iff_ne]
    rintro heq
    rw [heq, hname] at hs
    exact hne (Except.ok.inj hs).symm

end Attributes

end Rewire
