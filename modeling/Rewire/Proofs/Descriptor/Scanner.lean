import Mathlib
import Rewire.Descriptor.Grammar
import Rewire.Descriptor.Scanner
import Rewire.Proofs.Outcome

/-!
# What the scanner reads

The scanner of descriptors is one of the readers that are known (`Scanner.readsBy`): it reads a type
exactly where one is spelled, whatever follows (`Scanner.readType_eq_ok`), and the types of a method
one after the other (`Scanner.readParameters_eq_ok`). As reading has one result, a text begins with
one type at most.
-/

namespace Rewire

namespace Scanner

variable {cs rest : List Char} {t : TypeDescriptor}

/-! ## 1. Types without dimensions -/

theorem letterType?_eq_some {c : Char} :
    letterType? c = some t ↔ t.isArray = false ∧ t.spelling = [c] := by
  constructor
  · intro h
    unfold letterType? at h
    repeat' split at h
    all_goals first
      | (cases h; subst c; exact ⟨rfl, rfl⟩)
      | cases h
  · rintro ⟨simple, h⟩
    cases t with
    | array => cases simple
    | object name => cases name <;> cases h
    | _ =>
      cases h
      rfl

theorem splitSemicolon?_eq_some {done name : List Char} :
    splitSemicolon? done cs = some (name, rest) ↔
      ∃ name', ';' ∉ name' ∧ name = done.reverse ++ name' ∧ cs = name' ++ ';' :: rest := by
  constructor
  · intro h
    fun_induction splitSemicolon? done cs with
    | case1 => cases h
    | case2 =>
      cases h
      exact ⟨[], List.not_mem_nil, by simp, rfl⟩
    | case3 done c cs hc ih =>
      obtain ⟨name', hname', rfl, rfl⟩ := ih h
      exact ⟨c :: name', List.not_mem_cons_of_ne_of_not_mem (Ne.symm hc) hname', by simp, rfl⟩
  · rintro ⟨name', hname', rfl, rfl⟩
    induction name' generalizing done with
    | nil =>
      rw [List.append_nil]
      rfl
    | cons c name' ih =>
      rw [List.cons_append, splitSemicolon?,
        if_neg (Ne.symm (List.ne_of_not_mem_cons hname')),
        ih (List.not_mem_of_not_mem_cons hname')]
      simp

/-- A type without dimensions is read exactly where one is spelled. -/
theorem readSimpleType_eq_ok :
    readSimpleType cs = .ok (.type t rest) ↔
      t.isArray = false ∧ t.IsReadable ∧ cs = t.spelling ++ rest := by
  constructor
  · intro h
    unfold readSimpleType at h
    split at h
    · cases h
    split at h
    · rename_i hletter
      cases h
      obtain ⟨simple, hspelling⟩ := letterType?_eq_some.1 hletter
      refine ⟨simple, ?_, by rw [hspelling]; rfl⟩
      cases t with
      | array => cases simple
      | object name => cases name <;> cases hspelling
      | _ => trivial
    split at h
    · rename_i hc
      subst hc
      split at h
      · rename_i hsplit
        cases h
        obtain ⟨name, hname, rfl, rfl⟩ := splitSemicolon?_eq_some.1 hsplit
        exact ⟨rfl, hname, by simp [TypeDescriptor.spelling]⟩
      · cases h
    · split at h <;> cases h
  · rintro ⟨simple, readable, rfl⟩
    cases t with
    | array => cases simple
    | object name =>
      have hsplit : splitSemicolon? [] (name ++ [';'] ++ rest) = some (name, rest) :=
        splitSemicolon?_eq_some.2 ⟨name, readable, rfl, by simp⟩
      show readSimpleType ('L' :: (name ++ [';'] ++ rest)) = _
      rw [readSimpleType, show letterType? 'L' = none from rfl]
      simp only [if_pos, hsplit]
    | _ => rfl

theorem readSimpleType_eq_close : readSimpleType cs = .ok (.close rest) ↔ cs = ')' :: rest := by
  constructor
  · intro h
    unfold readSimpleType at h
    split at h
    · cases h
    split at h
    · cases h
    split at h
    · split at h <;> cases h
    split at h
    · rename_i hc
      cases h
      rw [hc]
    · cases h
  · rintro rfl
    rfl

/-- The spelling of a type without dimensions begins with no bracket. -/
theorem spelling_ne_bracket (simple : t.isArray = false) (cs' : List Char) :
    t.spelling ++ rest ≠ '[' :: cs' := by
  intro h
  cases t with
  | array => cases simple
  | _ => cases h

/-! ## 2. Types -/

/-- **An array type is read exactly where its brackets and its element are spelled.** -/
theorem readElementType_eq_ok {n : Nat} (hn : n ≤ maxDimensions) :
    readElementType n cs = .ok (.type t rest) ↔
      ∃ (k : Nat) (element : TypeDescriptor), n + k ≤ maxDimensions ∧ element.isArray = false ∧
        element.IsReadable ∧ cs = List.replicate k '[' ++ element.spelling ++ rest ∧
        t = .array (n + k) element := by
  constructor
  · intro h
    fun_induction readElementType n cs with
    | case1 n cs hlt ih =>
      obtain ⟨k, element, hdims, simple, readable, rfl, rfl⟩ := ih hlt h
      exact ⟨k + 1, element, by omega, simple, readable, rfl, by rw [Nat.add_right_comm]; rfl⟩
    | case2 => cases h
    | case3 n cs _ element _ hsimple =>
      cases h
      obtain ⟨simple, readable, rfl⟩ := readSimpleType_eq_ok.1 hsimple
      exact ⟨0, element, hn, simple, readable, rfl, rfl⟩
    | case4 => cases h
    | case5 => cases h
  · rintro ⟨k, element, hdims, simple, readable, rfl, rfl⟩
    -- by induction on the brackets that are still to come
    induction k generalizing n with
    | zero =>
      rw [List.replicate_zero, List.nil_append,
        readElementType.eq_2 _ _ fun cs' => spelling_ne_bracket simple cs',
        readSimpleType_eq_ok.2 ⟨simple, readable, rfl⟩]
      rfl
    | succ k ih =>
      rw [List.replicate_succ, List.cons_append, List.cons_append, readElementType.eq_1,
        if_pos (show n < maxDimensions by omega), ih (by omega) (by omega), Nat.add_right_comm]
      rfl

/-- **A type is read exactly where one is spelled**, whatever follows. -/
theorem readType_eq_ok :
    readType cs = .ok (.type t rest) ↔ t.IsReadable ∧ cs = t.spelling ++ rest := by
  constructor
  · intro h
    unfold readType at h
    split at h
    · obtain ⟨k, element, hdims, simple, readable, rfl, rfl⟩ :=
        (readElementType_eq_ok (by decide)).1 h
      refine ⟨⟨⟨by omega, hdims⟩, simple, readable⟩, ?_⟩
      rw [Nat.add_comm]
      rfl
    · obtain ⟨-, readable, rfl⟩ := readSimpleType_eq_ok.1 h
      exact ⟨readable, rfl⟩
  · rintro ⟨readable, rfl⟩
    by_cases simple : t.isArray = false
    · rw [readType.eq_2 _ fun cs' => spelling_ne_bracket simple cs']
      exact readSimpleType_eq_ok.2 ⟨simple, readable, rfl⟩
    · cases t with
      | array n element =>
        obtain ⟨⟨hpos, hdims⟩, hsimple, readable⟩ := readable
        obtain ⟨k, rfl⟩ := Nat.exists_eq_succ_of_ne_zero hpos.ne'
        refine (readElementType_eq_ok (by decide)).2 ⟨k, element, by omega, hsimple, readable, rfl, ?_⟩
        rw [Nat.add_comm]
      | _ => exact absurd rfl simple

theorem readType_eq_close : readType cs = .ok (.close rest) ↔ cs = ')' :: rest := by
  constructor
  · intro h
    unfold readType at h
    split at h
    · rename_i cs'
      have hnever : ∀ (n : Nat) (cs : List Char), readElementType n cs ≠ .ok (.close rest) := by
        intro n cs h
        fun_induction readElementType n cs with
        | case1 _ _ _ ih => exact ih h
        | _ => cases h
      exact absurd h (hnever 1 cs')
    · exact readSimpleType_eq_close.1 h
  · rintro rfl
    rfl

/-! ## 3. Method types -/

open DescriptorReader (ReadsTypes)

/-- **Parameters are read one after the other**, up to the closing parenthesis. -/
theorem readParameters_eq_ok {done ts : List TypeDescriptor} :
    readParameters done cs = .ok (ts, rest) ↔
      ∃ more, ReadsTypes readType cs more rest ∧ ts = done.reverse ++ more := by
  constructor
  · intro h
    fun_induction readParameters done cs with
    | case1 done cs t rest' hread _ ih =>
      obtain ⟨more, hmore, rfl⟩ := ih h
      exact ⟨t :: more, .type hread hmore, by simp⟩
    | case2 done cs rest' hread =>
      cases h
      exact ⟨[], .close hread, (List.append_nil _).symm⟩
    | case3 => cases h
  · rintro ⟨more, hmore, rfl⟩
    induction hmore generalizing done with
    | close hread =>
      rw [readParameters]
      split <;> simp_all
    | type hread _ ih =>
      rw [readParameters]
      split
      · rename_i h
        cases hread.symm.trans h
        rw [ih]
        simp
      · rename_i h
        cases hread.symm.trans h
      · rename_i h
        cases hread.symm.trans h

theorem readMethodType_eq_ok {t : MethodTypeDescriptor} :
    readMethodType cs = .ok t ↔ ∃ inner rest rest', cs = '(' :: inner ∧
      ReadsTypes readType inner t.parameters rest ∧ readType rest = .ok (.type t.result rest') := by
  constructor
  · intro h
    unfold readMethodType at h
    split at h
    · obtain ⟨⟨ts, rest⟩, hparameters, h⟩ := bind_eq_ok.1 h
      obtain ⟨token, htoken, h⟩ := bind_eq_ok.1 h
      cases token with
      | type result rest' =>
        cases h
        obtain ⟨_, hmore, rfl⟩ := readParameters_eq_ok.1 hparameters
        exact ⟨_, rest, rest', rfl, hmore, htoken⟩
      | close => cases h
    · cases h
  · rintro ⟨inner, rest, rest', rfl, hparameters, hresult⟩
    exact bind_eq_ok.2 ⟨_, readParameters_eq_ok.2 ⟨_, hparameters, rfl⟩,
      bind_eq_ok.2 ⟨_, hresult, rfl⟩⟩

/-- **The scanner is one of the known readers.** -/
theorem readsBy : DescriptorReader.ReadsBy readType where
  type _ _ _ := readType_eq_ok
  close _ _ := readType_eq_close
  method _ _ := readMethodType_eq_ok

end Scanner

/-! ## 4. A text is spelled in one way -/

/-- Types that are spelled at the front of one text are the same type. -/
theorem TypeDescriptor.eq_of_spelling_append {t t' : TypeDescriptor} {rest rest' : List Char}
    (readable : t.IsReadable) (readable' : t'.IsReadable)
    (h : t.spelling ++ rest = t'.spelling ++ rest') : t = t' ∧ rest = rest' := by
  have hread : Scanner.readType (t.spelling ++ rest) = .ok (.type t rest) :=
    Scanner.readType_eq_ok.2 ⟨readable, rfl⟩
  have hread' := Scanner.readType_eq_ok.2 ⟨readable', h⟩
  exact TypeToken.type.inj (Except.ok.inj (hread.symm.trans hread'))

/-- No type begins with a closing parenthesis. -/
theorem TypeDescriptor.spelling_ne_close {t : TypeDescriptor} {rest rest' : List Char}
    (readable : t.IsReadable) : ')' :: rest ≠ t.spelling ++ rest' := by
  intro h
  have hread := Scanner.readType_eq_ok.2 ⟨readable, h⟩
  cases (Scanner.readType_eq_close.2 rfl).symm.trans hread

end Rewire
