import Mathlib
import Rewire.Proofs.Pool.Growth
import Rewire.Proofs.Text.Modified

/-!
# Steps that add to a pool

A step on a pool keeps the pool well-formed and only grows it, whether it fails or not. What it
finds can be read off the grown pool, and off every pool grown from that. This file fixes

* such steps with what they find (`ConstantPool.Finds`), which compose (`finds_bind`);
* slots that hold a request in full, each part at its first slot (`Request.Holds`);
* every request is found where it is said to be (`finds_request`), so resolving the slot gives what
  was requested (`Request.Holds.isAt`);
* texts are read back from their bytes, so different ones are different constants
  (`encodeText_survives`).
-/

namespace Rewire

namespace ConstantPool

/-! ## 1. Steps -/

/-- Whether a step keeps pools well-formed and grows them, and gives what holds of the grown pool. -/
def Finds {α : Type} (x : PoolStep α) (post : ConstantPool → α → Prop) : Prop :=
  ∀ p r q, p.WellFormed → x p = (r, q) →
    q.WellFormed ∧ p.GrowsTo q ∧ ∀ a, r = .ok a → post q a

/-- Whether what holds of a pool holds of the pools grown from it. -/
def Lasting (post : ConstantPool → Prop) : Prop :=
  ∀ p q, p.GrowsTo q → post p → post q

section Steps

variable {α β : Type} {x : PoolStep α} {f : α → PoolStep β}
  {P : ConstantPool → α → Prop} {Q : α → ConstantPool → β → Prop}

theorem finds_pure (a : α) : Finds (pure a) fun _ b => b = a := by
  intro p r q wf h
  obtain ⟨rfl, rfl⟩ := Prod.mk.inj h
  exact ⟨wf, .refl p, fun b hb => (Except.ok.inj hb).symm⟩

theorem finds_fail (fault : Fault) (post : ConstantPool → α → Prop) :
    Finds (fail fault : PoolStep α) post := by
  intro p r q wf h
  obtain ⟨rfl, rfl⟩ := Prod.mk.inj h
  exact ⟨wf, .refl p, fun a ha => absurd ha (fail_ne_ok fault a)⟩

theorem Finds.weaken {post : ConstantPool → α → Prop} (h : Finds x P)
    (hpost : ∀ q a, P q a → post q a) : Finds x post := by
  intro p r q wf hx
  obtain ⟨hwf, hgrow, hok⟩ := h p r q wf hx
  exact ⟨hwf, hgrow, fun a ha => hpost q a (hok a ha)⟩

/-- Steps one after another: what the first one found still holds at the end. -/
theorem finds_bind (hx : Finds x P) (lasting : ∀ a, Lasting fun p => P p a)
    (hf : ∀ a, Finds (f a) (Q a)) : Finds (x >>= f) fun q b => ∃ a, P q a ∧ Q a q b := by
  intro p r q wf h
  simp only [bind, ExceptT.bind, ExceptT.mk, StateT.bind, ExceptT.bindCont] at h
  rcases hxp : x p with ⟨e | a, s⟩
  · rw [hxp] at h
    obtain ⟨rfl, rfl⟩ := Prod.mk.inj h
    obtain ⟨hwf, hgrow, -⟩ := hx p _ s wf hxp
    exact ⟨hwf, hgrow, fun b hb => by cases hb⟩
  · rw [hxp] at h
    obtain ⟨hwf, hgrow, hok⟩ := hx p _ s wf hxp
    obtain ⟨hwf', hgrow', hok'⟩ := hf a s r q hwf h
    exact ⟨hwf', hgrow.trans hgrow', fun b hb =>
      ⟨a, lasting a s q hgrow' (hok a rfl), hok' b hb⟩⟩

theorem Finds.of_ok (h : Finds x P) {p q : ConstantPool} {a : α} (wf : p.WellFormed)
    (hx : x p = (.ok a, q)) : q.WellFormed ∧ p.GrowsTo q ∧ P q a := by
  obtain ⟨hwf, hgrow, hok⟩ := h p _ q wf hx
  exact ⟨hwf, hgrow, hok a rfl⟩

/-- Steps for the elements of a list. -/
theorem finds_mapM {g : α → PoolStep β} {l : List α} (hg : ∀ a ∈ l, Finds (g a) (Q a))
    (lasting : ∀ a b, Lasting fun p => Q a p b) :
    Finds (l.mapM g) fun q bs => List.Forall₂ (fun a b => Q a q b) l bs := by
  induction l with
  | nil => exact (finds_pure []).weaken fun _ _ hbs => hbs ▸ List.Forall₂.nil
  | cons a rest ih =>
    rw [List.mapM_cons]
    have hrest := ih fun b hb => hg b (List.mem_cons_of_mem _ hb)
    have h := finds_bind (hg a List.mem_cons_self) (lasting a) fun b =>
      finds_bind hrest (fun bs p q hgrow hbs => hbs.imp fun a b hab => lasting a b p q hgrow hab)
        fun bs => finds_pure (b :: bs)
    refine h.weaken fun q bs hbs => ?_
    obtain ⟨b, hb, more, hmore, rfl⟩ := hbs
    exact .cons hb hmore

end Steps

/-! ## 2. One constant -/

/-- **A constant is found at its first slot**, where it is put if it was not there. -/
theorem finds_intern {c : Constant} (fits : c.TextFits) (written : c.TextIsWritten) :
    Finds (intern c) fun q i => q.IsFirstSlot c i := by
  intro p r q wf h
  unfold intern at h
  simp only [ExceptT.mk] at h
  rcases hc : p.firstSlot[c]? with _ | i
  · simp only [hc] at h
    split at h
    · rename_i room
      obtain ⟨rfl, rfl⟩ := Prod.mk.inj h
      have absent : ∀ j : Nat, p.slots[j]? ≠ some (some c) := fun j hj => by
        obtain ⟨k, hk⟩ := exists_isFirstSlot wf.size_le hj
        exact wf.firstSlot_eq_none.1 hc k hk
      refine ⟨wf.push room fits, .push absent written, fun i hi => ?_⟩
      rw [← Except.ok.inj hi]
      exact (isFirstSlot_push room).2 (.inr ⟨absent, rfl, rfl⟩)
    · obtain ⟨rfl, rfl⟩ := Prod.mk.inj h
      exact ⟨wf, .refl p, fun i hi => absurd hi (fail_ne_ok .poolOverflow i)⟩
  · simp only [hc] at h
    obtain ⟨rfl, rfl⟩ := Prod.mk.inj h
    refine ⟨wf, .refl p, fun j hj => ?_⟩
    rw [← Except.ok.inj hj]
    exact (wf.firstSlot_iff c i).1 hc

/-- So is a constant that is no text. -/
theorem finds_intern_of_ne {c : Constant} (h : ∀ bytes, c ≠ .utf8 bytes) :
    Finds (intern c) fun q i => q.IsFirstSlot c i :=
  finds_intern (fun bytes hc => absurd hc (h bytes)) fun bytes hc => absurd hc (h bytes)

theorem intern_of_isFirstSlot {p : ConstantPool} (wf : p.WellFormed) {c : Constant} {i : UInt16}
    (h : p.IsFirstSlot c i) : intern c p = (.ok i, p) := by
  unfold intern
  simp only [ExceptT.mk, (wf.firstSlot_iff c i).2 h]

/-- A constant that is not there is put into the next slot. -/
theorem intern_of_absent {p : ConstantPool} (wf : p.WellFormed) {c : Constant}
    (absent : some c ∉ p.slots) (room : p.size + c.width ≤ maxSlots) :
    intern c p = (.ok (UInt16.ofNat p.size), p.push c) := by
  have hnone : p.firstSlot[c]? = none :=
    wf.firstSlot_eq_none.2 fun i hi => absent (Array.mem_of_getElem? hi.1)
  unfold intern
  simp only [ExceptT.mk, hnone, if_pos room]

/-! ## 3. Slots that hold a request -/

section Texts

variable {p : ConstantPool} {i : UInt16} {s : String}

theorem text_eq_ok :
    p.text i = .ok s ↔ ∃ bytes, p.get i = .ok (.utf8 bytes) ∧ Modified.decodeText bytes = .ok s := by
  constructor
  · intro h
    obtain ⟨c, hc, h⟩ := bind_eq_ok.1 h
    cases c with
    | utf8 bytes => exact ⟨bytes, hc, h⟩
    | _ => cases h
  · rintro ⟨bytes, hget, hdecode⟩
    exact bind_eq_ok.2 ⟨_, hget, hdecode⟩

theorem text_of_get (h : p.get i = .ok (.utf8 (Modified.encodeText s))) :
    p.text i = .ok s :=
  text_eq_ok.2 ⟨_, h, Modified.decodeText_encodeText s⟩

/-- What the slot of a method denotes, when the slots it mentions hold their texts. -/
theorem memberRef_of_get {slot owner member ownerName name descriptor : UInt16}
    {o n d : String} (hslot : p.get slot = .ok (.methodRef owner member))
    (howner : p.get owner = .ok (.classRef ownerName)) (ho : p.text ownerName = .ok o)
    (hmember : p.get member = .ok (.nameAndType name descriptor)) (hn : p.text name = .ok n)
    (hd : p.text descriptor = .ok d) :
    p.memberRef slot = .ok { owner := o, name := n, descriptor := d, interface := false } := by
  have hclass : p.className owner = .ok o := bind_eq_ok.2 ⟨_, howner, ho⟩
  have htype : p.nameAndType member = .ok (n, d) :=
    bind_eq_ok.2 ⟨_, hmember, bind_eq_ok.2 ⟨n, hn, bind_eq_ok.2 ⟨d, hd, rfl⟩⟩⟩
  exact bind_eq_ok.2 ⟨_, hslot, bind_eq_ok.2 ⟨o, during_eq_ok.2 hclass,
    bind_eq_ok.2 ⟨_, during_eq_ok.2 htype, rfl⟩⟩⟩

end Texts

/-- Whether a text is at its first slot. -/
def HoldsText (p : ConstantPool) (s : String) (i : UInt16) : Prop :=
  (Modified.encodeText s).length ≤ maxTextLength ∧ p.IsFirstSlot (.utf8 (Modified.encodeText s)) i

/-- Whether a class is at its first slot, and so is its name. -/
def HoldsClass (p : ConstantPool) (name : String) (i : UInt16) : Prop :=
  ∃ n, p.HoldsText name n ∧ p.IsFirstSlot (.classRef n) i

/-- Whether a name with its descriptor is at its first slot, and so are both. -/
def HoldsNameAndType (p : ConstantPool) (name descriptor : String) (i : UInt16) : Prop :=
  ∃ n d, p.HoldsText name n ∧ p.HoldsText descriptor d ∧ p.IsFirstSlot (.nameAndType n d) i

theorem lasting_holdsText (s : String) (i : UInt16) : Lasting fun p => p.HoldsText s i :=
  fun _ _ hgrow ⟨fits, h⟩ => ⟨fits, h.growsTo hgrow⟩

theorem lasting_holdsClass (name : String) (i : UInt16) : Lasting fun p => p.HoldsClass name i :=
  fun p q hgrow ⟨n, hn, h⟩ => ⟨n, lasting_holdsText name n p q hgrow hn, h.growsTo hgrow⟩

theorem lasting_holdsNameAndType (name descriptor : String) (i : UInt16) :
    Lasting fun p => p.HoldsNameAndType name descriptor i :=
  fun p q hgrow ⟨n, d, hn, hd, h⟩ => ⟨n, d, lasting_holdsText name n p q hgrow hn,
    lasting_holdsText descriptor d p q hgrow hd, h.growsTo hgrow⟩

theorem HoldsText.text {p : ConstantPool} {s : String} {i : UInt16} (h : p.HoldsText s i) :
    p.text i = .ok s :=
  text_of_get h.2.get

theorem HoldsClass.className {p : ConstantPool} {name : String} {i : UInt16}
    (h : p.HoldsClass name i) : p.className i = .ok name := by
  obtain ⟨n, hn, h⟩ := h
  exact bind_eq_ok.2 ⟨_, h.get, hn.text⟩

theorem HoldsNameAndType.nameAndType {p : ConstantPool} {name descriptor : String} {i : UInt16}
    (h : p.HoldsNameAndType name descriptor i) : p.nameAndType i = .ok (name, descriptor) := by
  obtain ⟨n, d, hn, hd, h⟩ := h
  exact bind_eq_ok.2 ⟨_, h.get, bind_eq_ok.2 ⟨_, hn.text, bind_eq_ok.2 ⟨_, hd.text, rfl⟩⟩⟩

theorem finds_internText (s : String) : Finds (internText s) fun q i => q.HoldsText s i := by
  unfold internText
  simp only
  split
  · rename_i fits
    have hwritten : (Constant.utf8 (Modified.encodeText s)).TextIsWritten := by
      intro bytes hbytes
      cases hbytes
      exact ⟨s, rfl⟩
    exact (finds_intern (Constant.textFits_utf8.2 fits) hwritten).weaken fun q i hi => ⟨fits, hi⟩
  · exact finds_fail _ _

theorem finds_internClass (name : String) :
    Finds (internClass name) fun q i => q.HoldsClass name i :=
  finds_bind (finds_internText name) (lasting_holdsText name) fun _ =>
    finds_intern_of_ne fun _ h => by cases h

theorem finds_internNameAndType (name descriptor : String) :
    Finds (internNameAndType name descriptor) fun q i => q.HoldsNameAndType name descriptor i := by
  have h := finds_bind (finds_internText name) (lasting_holdsText name) fun n =>
    finds_bind (finds_internText descriptor) (lasting_holdsText descriptor) fun d =>
      finds_intern_of_ne (c := .nameAndType n d) fun _ h => by cases h
  exact h.weaken fun q i ⟨n, hn, d, hd, hi⟩ => ⟨n, d, hn, hd, hi⟩

/-- Whether a member reference is at its first slot, and so are its parts. -/
def HoldsMember (p : ConstantPool) (make : UInt16 → UInt16 → Constant) (m : Member) (i : UInt16) :
    Prop :=
  ∃ owner member, p.HoldsClass m.owner owner ∧ p.HoldsNameAndType m.name m.descriptor member ∧
    p.IsFirstSlot (make owner member) i

theorem lasting_holdsMember (make : UInt16 → UInt16 → Constant) (m : Member) (i : UInt16) :
    Lasting fun p => p.HoldsMember make m i :=
  fun p q hgrow ⟨owner, member, howner, hmember, h⟩ =>
    ⟨owner, member, lasting_holdsClass m.owner owner p q hgrow howner,
      lasting_holdsNameAndType m.name m.descriptor member p q hgrow hmember, h.growsTo hgrow⟩

theorem finds_internMember (make : UInt16 → UInt16 → Constant) (m : Member)
    (plain : ∀ owner member bytes, make owner member ≠ .utf8 bytes) :
    Finds (do
      let owner ← internClass m.owner
      let member ← internNameAndType m.name m.descriptor
      intern (make owner member)) fun q i => q.HoldsMember make m i := by
  have h := finds_bind (finds_internClass m.owner) (lasting_holdsClass m.owner) fun owner =>
    finds_bind (finds_internNameAndType m.name m.descriptor)
      (lasting_holdsNameAndType m.name m.descriptor) fun member =>
        finds_intern_of_ne (plain owner member)
  exact h.weaken fun q i ⟨o, ho, n, hn, hi⟩ => ⟨o, n, ho, hn, hi⟩

theorem HoldsMember.resolve {p : ConstantPool} {make : UInt16 → UInt16 → Constant} {m : Member}
    {i : UInt16} (h : p.HoldsMember make m i) (interface : Bool) :
    ∃ owner member, p.get i = .ok (make owner member) ∧
      memberRef.resolve p owner member interface = .ok { m with interface } := by
  obtain ⟨owner, member, ho, hm, hi⟩ := h
  exact ⟨owner, member, hi.get, resolve_eq_ok.2 ⟨ho.className, hm.nameAndType, rfl⟩⟩

end ConstantPool

/-! ## 4. Requests -/

namespace Request

open ConstantPool

/-- The kind of reference through which a method is named. -/
def methodConstant (interface : Bool) (owner member : UInt16) : Constant :=
  if interface then .interfaceMethodRef owner member else .methodRef owner member

/-- Whether a slot holds a request at its first slot, and so its parts. -/
def Holds (p : ConstantPool) (i : UInt16) : Request → Prop
  | text s => p.HoldsText s i
  | classRef name => p.HoldsClass name i
  | string s => ∃ n, p.HoldsText s n ∧ p.IsFirstSlot (.string n) i
  | integer value => p.IsFirstSlot (.integer value) i
  | float bits => p.IsFirstSlot (.float bits) i
  | long value => p.IsFirstSlot (.long value) i
  | double bits => p.IsFirstSlot (.double bits) i
  | nameAndType name descriptor => p.HoldsNameAndType name descriptor i
  | field m => p.HoldsMember .fieldRef m i
  | method m => p.HoldsMember (methodConstant m.interface) m.toMember i

/-- **Every request is found**, in whole and in its parts. -/
theorem finds_request (r : Request) : Finds r.intern fun q i => r.Holds q i := by
  cases r with
  | text s => exact finds_internText s
  | classRef name => exact finds_internClass name
  | string s =>
    exact finds_bind (finds_internText s) (lasting_holdsText s) fun n =>
      finds_intern_of_ne fun _ h => by cases h
  | integer value => exact finds_intern_of_ne fun _ h => by cases h
  | float bits => exact finds_intern_of_ne fun _ h => by cases h
  | long value => exact finds_intern_of_ne fun _ h => by cases h
  | double bits => exact finds_intern_of_ne fun _ h => by cases h
  | nameAndType name descriptor => exact finds_internNameAndType name descriptor
  | field m => exact finds_internMember _ m fun _ _ _ h => by cases h
  | method m =>
    refine finds_internMember (methodConstant m.interface) m.toMember fun _ _ _ h => ?_
    unfold methodConstant at h
    split at h <;> cases h

theorem lasting_holds (r : Request) (i : UInt16) : Lasting fun p => r.Holds p i := by
  intro p q hgrow h
  cases r with
  | text s => exact lasting_holdsText s i p q hgrow h
  | classRef name => exact lasting_holdsClass name i p q hgrow h
  | string s =>
    obtain ⟨n, hn, hi⟩ := h
    exact ⟨n, lasting_holdsText s n p q hgrow hn, hi.growsTo hgrow⟩
  | integer value => exact IsFirstSlot.growsTo h hgrow
  | float bits => exact IsFirstSlot.growsTo h hgrow
  | long value => exact IsFirstSlot.growsTo h hgrow
  | double bits => exact IsFirstSlot.growsTo h hgrow
  | nameAndType name descriptor => exact lasting_holdsNameAndType name descriptor i p q hgrow h
  | field m => exact lasting_holdsMember .fieldRef m i p q hgrow h
  | method m => exact lasting_holdsMember _ m.toMember i p q hgrow h

/-- Resolving the slot gives what was requested. -/
theorem Holds.isAt {p : ConstantPool} {i : UInt16} {r : Request} (h : r.Holds p i) :
    r.IsAt p i := by
  cases r with
  | text s => exact HoldsText.text h
  | classRef name => exact HoldsClass.className h
  | string s =>
    obtain ⟨n, hn, hi⟩ := h
    exact ⟨n, hi.get, hn.text⟩
  | integer value => exact IsFirstSlot.get h
  | float bits => exact IsFirstSlot.get h
  | long value => exact IsFirstSlot.get h
  | double bits => exact IsFirstSlot.get h
  | nameAndType name descriptor => exact HoldsNameAndType.nameAndType h
  | field m =>
    obtain ⟨owner, member, hget, hresolve⟩ := HoldsMember.resolve h false
    exact ⟨⟨owner, member, hget⟩, bind_eq_ok.2 ⟨_, hget, hresolve⟩⟩
  | method m =>
    obtain ⟨owner, member, hget, hresolve⟩ := HoldsMember.resolve h m.interface
    obtain ⟨m, interface⟩ := m
    unfold methodConstant at hget
    refine ⟨fun ⟨o, n, hother⟩ => ?_, bind_eq_ok.2 ⟨_, hget, ?_⟩⟩
    · rw [hget] at hother
      cases interface <;> cases hother
    · cases interface with
      | false => exact hresolve
      | true => exact hresolve

end Request

/-! ## 5. Texts as constants -/

open ConstantPool in
/-- **Every text survives its encoding.** It is read back from its bytes, none of which is zero or
    begins a character of four bytes. So texts with the same bytes are the same, and texts that are put
    into a pool at any time share a slot only when they are the same. -/
theorem encodeText_survives (s : String) :
    Modified.decodeText (Modified.encodeText s) = .ok s ∧
      (∀ b ∈ Modified.encodeText s, b ≠ 0 ∧ b < 0xf0) ∧
      ∀ t, (Modified.encodeText s = Modified.encodeText t → s = t) ∧
        ∀ (p q q' r : ConstantPool) (i j : UInt16), p.WellFormed → internText s p = (.ok i, q) →
          q.GrowsTo q' → q'.WellFormed → internText t q' = (.ok j, r) → (i = j ↔ s = t) := by
  refine ⟨Modified.decodeText_encodeText s, Modified.bytes_encodeText s,
    fun t => ⟨Modified.encodeText_inj.1, fun p q q' r i j wf hs hgrow wf' ht => ?_⟩⟩
  obtain ⟨-, -, hi⟩ := (finds_internText s).of_ok wf hs
  obtain ⟨-, hgrow', hj⟩ := (finds_internText t).of_ok wf' ht
  have hi := lasting_holdsText s i _ _ (hgrow.trans hgrow') hi
  constructor
  · -- A slot holds one constant, and its bytes are read as one text.
    rintro rfl
    exact Except.ok.inj (hi.text.symm.trans hj.text)
  · rintro rfl
    exact hi.2.unique hj.2

/-- The character zero, and one that takes two units. -/
def zeroAndFace : String :=
  String.ofList [Char.ofNat 0, Char.ofNat 0x1f600]

open ConstantPool in
theorem internText_of_absent {p : ConstantPool} {s : String} (wf : p.WellFormed)
    (fits : (Modified.encodeText s).length ≤ maxTextLength)
    (absent : some (.utf8 (Modified.encodeText s)) ∉ p.slots) (room : p.size + 1 ≤ maxSlots) :
    internText s p = (.ok (UInt16.ofNat p.size), p.push (.utf8 (Modified.encodeText s))) := by
  unfold internText
  rw [if_pos fits]
  exact intern_of_absent wf absent room

open ConstantPool in
theorem encodeText_survives_zeroAndFace :
    Modified.encodeText zeroAndFace = [0xc0, 0x80, 0xed, 0xa0, 0xbd, 0xed, 0xb8, 0x80] ∧
      Modified.decodeText [0xc0, 0x80, 0xed, 0xa0, 0xbd, 0xed, 0xb8, 0x80] = .ok zeroAndFace ∧
      (∀ b ∈ Modified.encodeText zeroAndFace, b ≠ 0 ∧ b < 0xf0) ∧
      ∃ q r, internText zeroAndFace empty = (.ok 1, q) ∧ internText "A" q = (.ok 2, r) ∧
        ((1 : UInt16) = 2 ↔ zeroAndFace = "A") := by
  have hbytes : Modified.encodeText zeroAndFace =
      [0xc0, 0x80, 0xed, 0xa0, 0xbd, 0xed, 0xb8, 0x80] := by decide
  obtain ⟨hread, hrange, hothers⟩ := encodeText_survives zeroAndFace
  have hfirst := internText_of_absent (s := zeroAndFace) .empty (by decide) (by decide +kernel)
    (by decide)
  have wf : (empty.push (.utf8 (Modified.encodeText zeroAndFace))).WellFormed :=
    WellFormed.empty.push (by decide) (by decide)
  have hsecond := internText_of_absent (s := "A") wf (by decide) (by decide +kernel) (by decide)
  rw [hbytes] at hread
  exact ⟨hbytes, hread, hrange, _, _, hfirst, hsecond,
    (hothers "A").2 _ _ _ _ _ _ .empty hfirst (.refl _) wf hsecond⟩

end Rewire
