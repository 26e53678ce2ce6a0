import Mathlib
import Rewire.Proofs.Pool.Codec
import Rewire.Proofs.Pool.Intern

/-!
# Pools that serve requests

A pool is empty or read at first, and then serves requests, some of which fail half-way for want of
room. This file shows

* that requests keep a pool well-formed and let it grow only, one at a time (`Request.step`) and one
  after another (`WellFormed.serve`);
* what the slots of a well-formed pool look like (`ConstantPool.InOrder`): which of them hold
  nothing, and where each constant is found;
* that a request whose slot is known is answered with that slot and adds nothing
  (`Request.Holds.intern`), and that a slot answers one request only (`Request.IsAt.unique`);
* so whatever a pool was asked for before and is asked for later, its slots stay what they are
  (`serve_undisturbed`).
-/

namespace Rewire

open ConstantPool

/-! ## 1. Pools that were asked for something -/

namespace ConstantPool

/-- Whether a pool has no constants or was read from bytes. -/
def IsInitial (p : ConstantPool) : Prop :=
  p = .empty ∨ ∃ before after, Reader.pool before = .ok (p, after)

/-- Whether a pool was initial and then served requests. -/
def Reachable (p : ConstantPool) : Prop :=
  ∃ (first : ConstantPool) (requests : List Request), first.IsInitial ∧ p = first.serve requests

theorem IsInitial.wellFormed {p : ConstantPool} (h : p.IsInitial) : p.WellFormed := by
  rcases h with rfl | ⟨before, after, h⟩
  · exact .empty
  · exact gives_pool before p after h

end ConstantPool

/-- **One request**, answered or not, keeps a pool well-formed and adds at its end only. -/
theorem Request.step (r : Request) {p : ConstantPool} (wf : p.WellFormed) :
    (r.intern p).2.WellFormed ∧ p.GrowsTo (r.intern p).2 := by
  obtain ⟨hwf, hgrow, -⟩ := finds_request r p (r.intern p).1 (r.intern p).2 wf rfl
  exact ⟨hwf, hgrow⟩

namespace ConstantPool

/-- **So does a sequence of requests.** -/
theorem WellFormed.serve {p : ConstantPool} (wf : p.WellFormed) (requests : List Request) :
    (p.serve requests).WellFormed ∧ p.GrowsTo (p.serve requests) := by
  induction requests generalizing p with
  | nil => exact ⟨wf, .refl p⟩
  | cons r rest ih =>
    obtain ⟨hwf, hgrow⟩ := r.step wf
    obtain ⟨hwf', hgrow'⟩ := ih hwf
    exact ⟨hwf', hgrow.trans hgrow'⟩

theorem Reachable.wellFormed {p : ConstantPool} (h : p.Reachable) : p.WellFormed := by
  obtain ⟨first, requests, hfirst, rfl⟩ := h
  exact (hfirst.wellFormed.serve requests).1

/-! ## 2. Slots in order -/

/-- Whether a pool has no more slots than can be numbered, whether slot 0 and the slots after wide
    constants are the ones without content, and whether the index leads from every constant, and
    from nothing else, to its first slot. -/
structure InOrder (p : ConstantPool) : Prop where
  size_le : p.size ≤ maxSlots
  unused : ∀ n : Nat, p.slots[n]? = some none ↔
    n = 0 ∨ ∃ k c, n = k + 1 ∧ p.slots[k]? = some (some c) ∧ c.isWide = true
  indexed : ∀ c, some c ∈ p.slots → ∃ i, p.firstSlot[c]? = some i
  firstSlot : ∀ c i, p.firstSlot[c]? = some i ↔ p.IsFirstSlot c i

/-- Slots without content after a constant was added. -/
theorem unused_push {p : ConstantPool} {c : Constant} (n : Nat) :
    (p.push c).slots[n]? = some none ↔
      p.slots[n]? = some none ∨ n = p.size + 1 ∧ c.isWide = true := by
  have hlength : p.slots.toList.length = p.size := Array.length_toList
  rw [← Array.getElem?_toList, toList_slots_push]
  rcases Nat.lt_trichotomy n p.size with hlt | rfl | hgt
  · rw [List.getElem?_append_left (by rw [hlength]; exact hlt), Array.getElem?_toList]
    have hne : n ≠ p.size + 1 := by omega
    simp [hne]
  · rw [List.getElem?_append_right hlength.le, hlength, Nat.sub_self]
    have hnone : p.slots[p.size]? = none := Array.getElem?_eq_none (Nat.le_refl _)
    simp [hnone]
  · rw [List.getElem?_append_right (by rw [hlength]; exact hgt.le), hlength]
    have hnone : p.slots[n]? = none := Array.getElem?_eq_none hgt.le
    obtain ⟨k, hk⟩ := Nat.exists_eq_add_of_lt hgt
    rw [hnone, hk, show p.size + k + 1 - p.size = k + 1 by omega, List.getElem?_cons_succ]
    unfold Constant.width
    cases c.isWide
    · simp
    · cases k <;> simp

theorem WellFormed.unused_iff {p : ConstantPool} (h : p.WellFormed) (n : Nat) :
    p.slots[n]? = some none ↔
      n = 0 ∨ ∃ k c, n = k + 1 ∧ p.slots[k]? = some (some c) ∧ c.isWide = true := by
  induction h generalizing n with
  | empty =>
    have hnone : ∀ (k : Nat) (c : Constant), ConstantPool.empty.slots[k]? ≠ some (some c) := by
      intro k c
      cases k <;> simp [ConstantPool.empty]
    constructor
    · intro hn
      cases n with
      | zero => exact .inl rfl
      | succ n => simp [ConstantPool.empty] at hn
    · rintro (rfl | ⟨k, c, -, hk, -⟩)
      · rfl
      · exact absurd hk (hnone k c)
  | @push p c _ _ _ ih =>
    -- A new slot without content can only be the one after the constant that was added.
    rw [unused_push, ih]
    simp only [slots_push]
    constructor
    · rintro ((rfl | ⟨k, d, rfl, hd, hwide⟩) | ⟨rfl, hwide⟩)
      · exact .inl rfl
      · exact .inr ⟨k, d, rfl, .inl hd, hwide⟩
      · exact .inr ⟨p.size, c, rfl, .inr ⟨rfl, rfl⟩, hwide⟩
    · rintro (rfl | ⟨k, d, rfl, hd | ⟨rfl, rfl⟩, hwide⟩)
      · exact .inl (.inl rfl)
      · exact .inl (.inr ⟨k, d, rfl, hd, hwide⟩)
      · exact .inr ⟨rfl, hwide⟩

/-- **The slots of a well-formed pool are in order.** -/
theorem WellFormed.inOrder {p : ConstantPool} (h : p.WellFormed) : p.InOrder where
  size_le := h.size_le
  unused := h.unused_iff
  indexed c hc := by
    obtain ⟨n, hn⟩ := Array.mem_iff_getElem?.1 hc
    obtain ⟨i, hi⟩ := exists_isFirstSlot h.size_le hn
    exact ⟨i, (h.firstSlot_iff c i).2 hi⟩
  firstSlot := h.firstSlot_iff

/-! ## 3. Requests made again -/

section Again

variable {p : ConstantPool} {i : UInt16}

theorem HoldsText.intern {s : String} (h : p.HoldsText s i) (wf : p.WellFormed) :
    internText s p = (.ok i, p) := by
  unfold internText
  rw [if_pos h.1]
  exact intern_of_isFirstSlot wf h.2

theorem HoldsClass.intern {name : String} (h : p.HoldsClass name i) (wf : p.WellFormed) :
    internClass name p = (.ok i, p) := by
  obtain ⟨n, hn, hi⟩ := h
  exact Step.bind_eq_ok.2 ⟨n, p, hn.intern wf, intern_of_isFirstSlot wf hi⟩

theorem HoldsNameAndType.intern {name descriptor : String}
    (h : p.HoldsNameAndType name descriptor i) (wf : p.WellFormed) :
    internNameAndType name descriptor p = (.ok i, p) := by
  obtain ⟨n, d, hn, hd, hi⟩ := h
  exact Step.bind_eq_ok.2 ⟨n, p, hn.intern wf, Step.bind_eq_ok.2 ⟨d, p, hd.intern wf,
    intern_of_isFirstSlot wf hi⟩⟩

theorem HoldsMember.intern {make : UInt16 → UInt16 → Constant} {m : Member}
    (h : p.HoldsMember make m i) (wf : p.WellFormed) :
    (do
      let owner ← internClass m.owner
      let member ← internNameAndType m.name m.descriptor
      ConstantPool.intern (make owner member)) p = (.ok i, p) := by
  obtain ⟨owner, member, howner, hmember, hi⟩ := h
  exact Step.bind_eq_ok.2 ⟨owner, p, howner.intern wf, Step.bind_eq_ok.2 ⟨member, p,
    hmember.intern wf, intern_of_isFirstSlot wf hi⟩⟩

end Again

end ConstantPool

namespace Request

/-- **A request whose slot is known** is answered with that slot, and adds nothing. -/
theorem Holds.intern {p : ConstantPool} {i : UInt16} {r : Request} (h : r.Holds p i)
    (wf : p.WellFormed) : r.intern p = (.ok i, p) := by
  cases r with
  | text s => exact HoldsText.intern h wf
  | classRef name => exact HoldsClass.intern h wf
  | string s =>
    obtain ⟨n, hn, hi⟩ := h
    exact Step.bind_eq_ok.2 ⟨n, p, hn.intern wf, intern_of_isFirstSlot wf hi⟩
  | integer value => exact intern_of_isFirstSlot wf h
  | float bits => exact intern_of_isFirstSlot wf h
  | long value => exact intern_of_isFirstSlot wf h
  | double bits => exact intern_of_isFirstSlot wf h
  | nameAndType name descriptor => exact HoldsNameAndType.intern h wf
  | field m => exact HoldsMember.intern h wf
  | method m => exact HoldsMember.intern h wf

/-! ## 4. Slots of different requests -/

/-- The request that the constant in a slot answers, if it answers one. -/
def answeredAt (p : ConstantPool) (index : UInt16) : Outcome Request := do
  match ← p.get index with
  | .utf8 bytes => return text (← Modified.decodeText bytes)
  | .classRef name => return classRef (← p.text name)
  | .string s => return string (← p.text s)
  | .integer value => return integer value
  | .float bits => return float bits
  | .long value => return long value
  | .double bits => return double bits
  | .nameAndType name descriptor =>
    return nameAndType (← p.text name) (← p.text descriptor)
  | .fieldRef _ _ => return field (← p.memberRef index).toMember
  | .methodRef _ _ | .interfaceMethodRef _ _ => return method (← p.memberRef index)
  | _ => fail (.invalidSlot index)

section Answered

variable {p : ConstantPool} {i : UInt16} {r r' : Request}

theorem IsAt.answeredAt (h : r.IsAt p i) : answeredAt p i = .ok r := by
  cases r with
  | text s =>
    obtain ⟨c, hc, h⟩ := bind_eq_ok.1 h
    cases c with
    | utf8 bytes => exact bind_eq_ok.2 ⟨_, hc, bind_eq_ok.2 ⟨s, h, rfl⟩⟩
    | _ => cases h
  | classRef name =>
    obtain ⟨c, hc, h⟩ := bind_eq_ok.1 h
    cases c with
    | classRef n => exact bind_eq_ok.2 ⟨_, hc, bind_eq_ok.2 ⟨name, h, rfl⟩⟩
    | _ => cases h
  | string s =>
    obtain ⟨n, hc, h⟩ := h
    exact bind_eq_ok.2 ⟨_, hc, bind_eq_ok.2 ⟨s, h, rfl⟩⟩
  | integer value => exact bind_eq_ok.2 ⟨_, h, rfl⟩
  | float bits => exact bind_eq_ok.2 ⟨_, h, rfl⟩
  | long value => exact bind_eq_ok.2 ⟨_, h, rfl⟩
  | double bits => exact bind_eq_ok.2 ⟨_, h, rfl⟩
  | nameAndType name descriptor =>
    obtain ⟨c, hc, h⟩ := bind_eq_ok.1 h
    cases c with
    | nameAndType n d =>
      obtain ⟨_, hn, h⟩ := bind_eq_ok.1 h
      obtain ⟨_, hd, h⟩ := bind_eq_ok.1 h
      cases h
      exact bind_eq_ok.2 ⟨_, hc, bind_eq_ok.2 ⟨_, hn, bind_eq_ok.2 ⟨_, hd, rfl⟩⟩⟩
    | _ => cases h
  | field m =>
    obtain ⟨⟨owner, member, hc⟩, h⟩ := h
    exact bind_eq_ok.2 ⟨_, hc, bind_eq_ok.2 ⟨_, h, rfl⟩⟩
  | method m =>
    obtain ⟨notField, h⟩ := h
    obtain ⟨c, hc, hresolved⟩ := bind_eq_ok.1 h
    cases c with
    | fieldRef owner member => exact absurd ⟨owner, member, hc⟩ notField
    | methodRef => exact bind_eq_ok.2 ⟨_, hc, bind_eq_ok.2 ⟨_, h, rfl⟩⟩
    | interfaceMethodRef => exact bind_eq_ok.2 ⟨_, hc, bind_eq_ok.2 ⟨_, h, rfl⟩⟩
    | _ => cases hresolved

/-- **A slot answers one request only.** -/
theorem IsAt.unique (h : r.IsAt p i) (h' : r'.IsAt p i) : r = r' :=
  Except.ok.inj (h.answeredAt.symm.trans h'.answeredAt)

end Answered

end Request

namespace ConstantPool

/-- **Requests never disturb a pool.** Whatever an initial pool has been asked for, its slots are in
    order, and more requests only add slots at its end. A request that is answered then is answered
    with a slot that holds what was requested, and it still is after any more requests: the slot
    holds the same, the request made again is answered with it and adds nothing, and no other
    request, of the same kind or not, is answered with it. -/
theorem serve_undisturbed {p : ConstantPool} (initial : p.IsInitial) (done more : List Request) :
    (p.serve done).InOrder ∧
      (p.serve done).slots.toList <+: ((p.serve done).serve more).slots.toList ∧
      ∀ (r : Request) (i : UInt16) (q : ConstantPool), r.intern (p.serve done) = (.ok i, q) →
        r.IsAt q i ∧ r.IsAt (q.serve more) i ∧ r.intern (q.serve more) = (.ok i, q.serve more) ∧
        ∀ (r' : Request) (j : UInt16) (q' : ConstantPool),
          r'.intern (q.serve more) = (.ok j, q') → r' ≠ r → j ≠ i := by
  have wf := (initial.wellFormed.serve done).1
  refine ⟨wf.inOrder, (wf.serve more).2.slots, fun r i q h => ?_⟩
  obtain ⟨wfq, -, holds⟩ := (Request.finds_request r).of_ok wf h
  obtain ⟨wfMore, hgrow⟩ := wfq.serve more
  -- `Holds` is the invariant: unlike `IsAt` it says that each part is at its first slot.
  have held : r.Holds (q.serve more) i := Request.lasting_holds r i _ _ hgrow holds
  refine ⟨holds.isAt, held.isAt, held.intern wfMore, ?_⟩
  rintro r' j q' h' hne rfl
  obtain ⟨-, hgrow', holds'⟩ := (Request.finds_request r').of_ok wfMore h'
  exact hne (holds'.isAt.unique (Request.lasting_holds r j _ _ hgrow' held).isAt)

/-! ## 5. A pool with a text in two slots -/

namespace twoTexts

/-- The pool, in which a class is named by the second of the two slots. -/
def pool : ConstantPool :=
  (((empty.push (.long 7)).push (.utf8 (Modified.encodeText "A"))).push
    (.utf8 (Modified.encodeText "A"))).push (.classRef 4)

theorem wellFormed_pool : pool.WellFormed :=
  (((WellFormed.empty.push (by decide) (by decide)).push (by decide) (by decide)).push (by decide)
    (by decide)).push (by decide) (by decide)

theorem isInitial_pool : pool.IsInitial := by
  rcases reads_pool wellFormed_pool [] [] with h | ⟨long, -⟩
  · exact .inr ⟨_, _, h⟩
  · exact absurd long (by decide)

theorem holds_text : (Request.text "A").Holds pool 3 :=
  ⟨by decide, rfl, by decide⟩

theorem serve_text : pool.serve [.text "A"] = pool :=
  congrArg Prod.snd (holds_text.intern wellFormed_pool)

/-- The class that is named by the first slot is not there yet. -/
theorem intern_class :
    (Request.classRef "A").intern pool = (.ok 6, pool.push (.classRef 3)) :=
  Step.bind_eq_ok.2 ⟨3, pool, HoldsText.intern holds_text wellFormed_pool,
    intern_of_absent wellFormed_pool (by decide +kernel) (by decide)⟩

theorem wellFormed_class : (pool.push (.classRef 3)).WellFormed :=
  wellFormed_pool.push (by decide) fun _ h => nomatch h

theorem holds_long : (Request.long 7).Holds (pool.push (.classRef 3)) 1 :=
  ⟨rfl, by decide⟩

end twoTexts

/-- The class gets a slot of its own, and keeps it when a string is requested, too. -/
theorem serve_undisturbed_twoTexts : twoTexts.pool.IsInitial ∧
    ∃ q, (Request.classRef "A").intern (twoTexts.pool.serve [.text "A"]) = (.ok 6, q) ∧
      (q.serve [.string "A"]).className 6 = .ok "A" ∧
      (Request.classRef "A").intern (q.serve [.string "A"]) = (.ok 6, q.serve [.string "A"]) ∧
      (Request.long 7).intern (q.serve [.string "A"]) = (.ok 1, q.serve [.string "A"]) ∧
      (1 : UInt16) ≠ 6 := by
  have hserve : (Request.classRef "A").intern (twoTexts.pool.serve [.text "A"]) =
      (.ok 6, twoTexts.pool.push (.classRef 3)) := by
    rw [twoTexts.serve_text]
    exact twoTexts.intern_class
  obtain ⟨-, -, hlast⟩ :=
    serve_undisturbed twoTexts.isInitial_pool [.text "A"] [.string "A"]
  obtain ⟨-, hat, hagain, hother⟩ := hlast _ _ _ hserve
  obtain ⟨wf, hgrow⟩ := twoTexts.wellFormed_class.serve [.string "A"]
  have hlong := (Request.lasting_holds (.long 7) 1 _ _ hgrow twoTexts.holds_long).intern wf
  exact ⟨twoTexts.isInitial_pool, _, hserve, hat, hagain, hlong, hother (.long 7) 1 _ hlong nofun⟩

end ConstantPool

end Rewire
