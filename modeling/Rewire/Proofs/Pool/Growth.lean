import Mathlib
import Rewire.Pool.Codec
import Rewire.Pool.Request
import Rewire.Proofs.Outcome

/-!
# Pools that grow

Constants are added to a pool at its end, one after another. This file fixes

* pools built from the empty one (`ConstantPool.WellFormed`), in which slot 0 holds nothing and
  every constant is found at its first slot (`WellFormed.firstSlot_iff`);
* the order of growth (`ConstantPool.GrowsTo`), along which everything that a slot denotes stays
  what it was (`GrowsTo.text`, `GrowsTo.className`, `GrowsTo.memberRef`, …).
-/

namespace Rewire

/-! ## 1. Well-formed pools -/

/-- Whether the text of a constant is short enough to be written. -/
def Constant.TextFits (c : Constant) : Prop :=
  ∀ bytes, c = .utf8 bytes → bytes.length ≤ ConstantPool.maxTextLength

theorem Constant.textFits_utf8 {bytes : Bytes} :
    (Constant.utf8 bytes).TextFits ↔ bytes.length ≤ ConstantPool.maxTextLength :=
  ⟨fun h => h bytes rfl, fun h _ heq => Constant.utf8.inj heq ▸ h⟩

instance : DecidablePred Constant.TextFits
  | .utf8 _ => decidable_of_iff' _ Constant.textFits_utf8
  | .integer _ | .float _ | .long _ | .double _ | .classRef _ | .string _ | .fieldRef _ _
  | .methodRef _ _ | .interfaceMethodRef _ _ | .nameAndType _ _ | .methodHandle _ _
  | .methodType _ | .dynamic _ _ | .invokeDynamic _ _ | .moduleRef _ | .packageRef _ =>
    .isTrue nofun

/-- Whether the text of a constant is spelled as texts are written. -/
def Constant.TextIsWritten (c : Constant) : Prop :=
  ∀ bytes, c = .utf8 bytes → ∃ s, bytes = Modified.encodeText s

namespace ConstantPool

/-- Pools built by adding constants at the end while there is room. -/
inductive WellFormed : ConstantPool → Prop where
  | empty : WellFormed .empty
  | push {p : ConstantPool} {c : Constant} (h : WellFormed p) (room : p.size + c.width ≤ maxSlots)
      (fits : c.TextFits) : WellFormed (p.push c)

theorem toList_slots_push (p : ConstantPool) (c : Constant) :
    (p.push c).slots.toList =
      p.slots.toList ++ some c :: List.replicate (c.width - 1) none := by
  unfold push Constant.width
  cases c.isWide <;> simp

/-- The constants in the slots after one was added. -/
theorem slots_push {p : ConstantPool} {c d : Constant} (j : Nat) :
    (p.push c).slots[j]? = some (some d) ↔
      p.slots[j]? = some (some d) ∨ j = p.size ∧ c = d := by
  rw [← Array.getElem?_toList, toList_slots_push]
  rcases Nat.lt_trichotomy j p.size with hlt | rfl | hgt
  · rw [List.getElem?_append_left (by simpa [size] using hlt), Array.getElem?_toList]
    simp [Nat.ne_of_lt hlt]
  · rw [List.getElem?_append_right (by simp [size])]
    simp [size]
  · rw [List.getElem?_append_right (by simpa [size] using Nat.le_of_lt hgt)]
    have hnone : p.slots[j]? = none := Array.getElem?_eq_none (Nat.le_of_lt hgt)
    have hpos : j - p.slots.toList.length ≠ 0 := by
      have : p.size = p.slots.toList.length := by simp [size]
      omega
    obtain ⟨k, hk⟩ := Nat.exists_eq_succ_of_ne_zero hpos
    rw [hk, hnone]
    simp [List.getElem?_replicate, Nat.ne_of_gt hgt]

theorem WellFormed.size_le {p : ConstantPool} (h : p.WellFormed) : p.size ≤ maxSlots := by
  cases h with
  | empty => decide
  | push _ room _ =>
    rw [size_push]
    exact room

theorem WellFormed.size_pos {p : ConstantPool} (h : p.WellFormed) : 0 < p.size := by
  induction h with
  | empty => decide
  | push _ _ _ ih =>
    rw [size_push]
    omega

/-- Slot 0 holds nothing. -/
theorem WellFormed.slot_zero {p : ConstantPool} (h : p.WellFormed) : p.slots[0]? = some none := by
  induction h with
  | empty => rfl
  | @push p c h _ _ ih =>
    have hpos : 0 < p.slots.toList.length := h.size_pos
    rw [← Array.getElem?_toList, toList_slots_push, List.getElem?_append_left hpos,
      Array.getElem?_toList]
    exact ih

/-! ## 2. Growth -/

/-- Whether one pool has the slots of another one at its start, and after them only constants that
    were not there before. -/
structure GrowsTo (p q : ConstantPool) : Prop where
  slots : p.slots.toList <+: q.slots.toList
  fresh : ∀ n c, p.size ≤ n → q.slots[n]? = some (some c) →
    (∀ k < n, q.slots[k]? ≠ some (some c)) ∧ c.TextIsWritten

namespace GrowsTo

variable {p q r : ConstantPool} {i : UInt16}

theorem slot (h : p.GrowsTo q) {n : Nat} {s : Option Constant} (hs : p.slots[n]? = some s) :
    q.slots[n]? = some s := by
  rw [← Array.getElem?_toList] at hs ⊢
  obtain ⟨more, hmore⟩ := h.slots
  rw [← hmore, List.getElem?_append_left (List.getElem?_eq_some_iff.1 hs).1]
  exact hs

theorem size_le (h : p.GrowsTo q) : p.size ≤ q.size := by
  have := List.IsPrefix.length_le h.slots
  simpa [size] using this

/-- The slots that both pools have are the same. -/
theorem slot_eq (h : p.GrowsTo q) {n : Nat} (hn : n < p.size) : q.slots[n]? = p.slots[n]? := by
  have hown : p.slots[n]? = some p.slots[n] := Array.getElem?_eq_getElem hn
  rw [hown]
  exact h.slot hown

protected theorem refl (p : ConstantPool) : p.GrowsTo p :=
  ⟨List.prefix_refl _, fun _ _ hn hc =>
    absurd (Array.getElem?_eq_some_iff.1 hc).1 (Nat.not_lt.2 hn)⟩

protected theorem trans (h : p.GrowsTo q) (h' : q.GrowsTo r) : p.GrowsTo r := by
  refine ⟨h.slots.trans h'.slots, fun n c hn hc => ?_⟩
  by_cases hq : n < q.size
  · rw [h'.slot_eq hq] at hc
    obtain ⟨hfirst, hwritten⟩ := h.fresh n c hn hc
    refine ⟨fun k hk => ?_, hwritten⟩
    rw [h'.slot_eq (hk.trans hq)]
    exact hfirst k hk
  · exact h'.fresh n c (Nat.le_of_not_lt hq) hc

theorem push {p : ConstantPool} {c : Constant} (absent : ∀ j : Nat, p.slots[j]? ≠ some (some c))
    (written : c.TextIsWritten) : p.GrowsTo (p.push c) := by
  refine ⟨?_, fun n d hn hd => ?_⟩
  · rw [toList_slots_push]
    exact List.prefix_append _ _
  · rcases (slots_push n).1 hd with hold | ⟨rfl, rfl⟩
    · exact absurd (Array.getElem?_eq_some_iff.1 hold).1 (Nat.not_lt.2 hn)
    · refine ⟨fun k hk hslot => ?_, written⟩
      rcases (slots_push k).1 hslot with hold | ⟨rfl, -⟩
      · exact absent k hold
      · exact Nat.lt_irrefl _ hk

end GrowsTo

theorem get_eq_ok {p : ConstantPool} {i : UInt16} {c : Constant} :
    p.get i = .ok c ↔ p.slots[i.toNat]? = some (some c) := by
  unfold get
  rcases h : p.slots[i.toNat]? with _ | _ | d
  · simp
  · simp
  · simp

/-- A member is resolved when its owner and its name and descriptor are. -/
theorem resolve_eq_ok {p : ConstantPool} {owner member : UInt16} {interface : Bool} {m : MemberRef} :
    memberRef.resolve p owner member interface = .ok m ↔ p.className owner = .ok m.owner ∧
      p.nameAndType member = .ok (m.name, m.descriptor) ∧ m.interface = interface := by
  constructor
  · intro h
    obtain ⟨_, howner, h⟩ := bind_eq_ok.1 h
    obtain ⟨⟨_, _⟩, hmember, h⟩ := bind_eq_ok.1 h
    cases h
    exact ⟨during_eq_ok.1 howner, during_eq_ok.1 hmember, rfl⟩
  · rintro ⟨howner, hmember, rfl⟩
    exact bind_eq_ok.2 ⟨_, during_eq_ok.2 howner, bind_eq_ok.2 ⟨_, during_eq_ok.2 hmember, rfl⟩⟩

namespace GrowsTo

variable {p q : ConstantPool} {i : UInt16}

theorem get (h : p.GrowsTo q) {c : Constant} (hc : p.get i = .ok c) : q.get i = .ok c :=
  get_eq_ok.2 (h.slot (get_eq_ok.1 hc))

/-- A step that goes on with the constant in a slot. -/
theorem getBind {α : Type} (h : p.GrowsTo q) {f g : Constant → Outcome α} {a : α}
    (hfg : ∀ c, f c = .ok a → g c = .ok a) (ha : p.get i >>= f = .ok a) :
    q.get i >>= g = .ok a := by
  obtain ⟨c, hc, hf⟩ := bind_eq_ok.1 ha
  exact bind_eq_ok.2 ⟨c, h.get hc, hfg c hf⟩

theorem text (h : p.GrowsTo q) {s : String} (hs : p.text i = .ok s) : q.text i = .ok s :=
  h.getBind (fun _ hc => hc) hs

theorem className (h : p.GrowsTo q) {s : String} (hs : p.className i = .ok s) :
    q.className i = .ok s := by
  refine h.getBind (fun c hc => ?_) hs
  cases c with
  | classRef name => exact h.text hc
  | _ => cases hc

theorem nameAndType (h : p.GrowsTo q) {s : String × String} (hs : p.nameAndType i = .ok s) :
    q.nameAndType i = .ok s := by
  refine h.getBind (fun c hc => ?_) hs
  cases c with
  | nameAndType name descriptor =>
    obtain ⟨n, hn, hc⟩ := bind_eq_ok.1 hc
    obtain ⟨d, hd, hc⟩ := bind_eq_ok.1 hc
    exact bind_eq_ok.2 ⟨n, h.text hn, bind_eq_ok.2 ⟨d, h.text hd, hc⟩⟩
  | _ => cases hc

theorem resolve (h : p.GrowsTo q) {owner member : UInt16} {interface : Bool} {m : MemberRef}
    (hm : memberRef.resolve p owner member interface = .ok m) :
    memberRef.resolve q owner member interface = .ok m := by
  obtain ⟨howner, hmember, hinterface⟩ := resolve_eq_ok.1 hm
  exact resolve_eq_ok.2 ⟨h.className howner, h.nameAndType hmember, hinterface⟩

theorem memberRef (h : p.GrowsTo q) {m : MemberRef} (hm : p.memberRef i = .ok m) :
    q.memberRef i = .ok m := by
  refine h.getBind (fun c hc => ?_) hm
  cases c with
  | fieldRef owner member => exact h.resolve hc
  | methodRef owner member => exact h.resolve hc
  | interfaceMethodRef owner member => exact h.resolve hc
  | _ => cases hc

end GrowsTo

/-! ## 3. First slots -/

namespace IsFirstSlot

variable {p q : ConstantPool} {c : Constant} {i j : UInt16}

theorem get (h : p.IsFirstSlot c i) : p.get i = .ok c :=
  get_eq_ok.2 h.1

theorem lt_size (h : p.IsFirstSlot c i) : i.toNat < p.size :=
  (Array.getElem?_eq_some_iff.1 h.1).1

theorem unique (h : p.IsFirstSlot c i) (h' : p.IsFirstSlot c j) : i = j := by
  rcases Nat.lt_trichotomy i.toNat j.toNat with hlt | heq | hlt
  · exact absurd h.1 (h'.2 _ hlt)
  · exact UInt16.toNat_inj.1 heq
  · exact absurd h'.1 (h.2 _ hlt)

/-- The first slot of a constant stays its first slot. -/
theorem growsTo (h : p.IsFirstSlot c i) (hpq : p.GrowsTo q) : q.IsFirstSlot c i := by
  refine ⟨hpq.slot h.1, fun j hj hslot => ?_⟩
  have hlt : j < p.slots.size := Nat.lt_trans hj h.lt_size
  have hown := Array.getElem?_eq_getElem hlt
  refine h.2 j hj ?_
  rw [hown, ← hslot]
  exact (hpq.slot hown).symm

/-- The first slot of a constant is its first slot already where it is one. -/
theorem of_growsTo (h : q.IsFirstSlot c i) (hpq : p.GrowsTo q) (hi : i.toNat < p.size) :
    p.IsFirstSlot c i := by
  refine ⟨(hpq.slot_eq hi).symm.trans h.1, fun j hj hslot => h.2 j hj ?_⟩
  exact hpq.slot hslot

end IsFirstSlot

theorem exists_isFirstSlot {p : ConstantPool} (small : p.size ≤ maxSlots) {c : Constant} {j : Nat}
    (hj : p.slots[j]? = some (some c)) : ∃ i, p.IsFirstSlot c i := by
  have hex : ∃ j, p.slots[j]? = some (some c) := ⟨j, hj⟩
  have hfind := Nat.find_spec hex
  have hlt : Nat.find hex < p.size := (Array.getElem?_eq_some_iff.1 hfind).1
  have hword : (UInt16.ofNat (Nat.find hex)).toNat = Nat.find hex := by
    rw [UInt16.toNat_ofNat']
    simp only [maxSlots] at small
    omega
  refine ⟨UInt16.ofNat (Nat.find hex), ?_, fun k hk => ?_⟩
  · rwa [hword]
  · rw [hword] at hk
    exact Nat.find_min hex hk

theorem WellFormed.ne_zero {p : ConstantPool} (h : p.WellFormed) {c : Constant} {i : UInt16}
    (hc : p.get i = .ok c) : i ≠ 0 := by
  rintro rfl
  have hslot := get_eq_ok.1 hc
  rw [show (0 : UInt16).toNat = 0 from rfl, h.slot_zero] at hslot
  cases hslot

/-- Where the first slot of a constant is after another one was added. -/
theorem isFirstSlot_push {p : ConstantPool} {c d : Constant} {i : UInt16}
    (room : p.size + c.width ≤ maxSlots) :
    (p.push c).IsFirstSlot d i ↔
      p.IsFirstSlot d i ∨ (∀ j : Nat, p.slots[j]? ≠ some (some d)) ∧ d = c ∧ i = UInt16.ofNat p.size := by
  have hnext : (UInt16.ofNat p.size).toNat = p.size := by
    rw [UInt16.toNat_ofNat']
    simp only [maxSlots] at room
    omega
  have hslots := fun j => slots_push (p := p) (c := c) (d := d) j
  constructor
  · rintro ⟨hi, hfirst⟩
    rcases (hslots _).1 hi with hold | ⟨heq, rfl⟩
    · exact .inl ⟨hold, fun j hj hslot => hfirst j hj ((hslots j).2 (.inl hslot))⟩
    · refine .inr ⟨fun j hslot => ?_, rfl, UInt16.toNat_inj.1 (by rw [heq, hnext])⟩
      have hlt : j < p.size := (Array.getElem?_eq_some_iff.1 hslot).1
      exact hfirst j (by omega) ((hslots j).2 (.inl hslot))
  · rintro (h | ⟨hnone, rfl, rfl⟩)
    · refine ⟨(hslots _).2 (.inl h.1), fun j hj hslot => ?_⟩
      rcases (hslots j).1 hslot with hold | ⟨rfl, -⟩
      · exact h.2 j hj hold
      · exact absurd hj (Nat.lt_asymm h.lt_size)
    · refine ⟨(hslots _).2 (.inr ⟨hnext, rfl⟩), fun j hj hslot => ?_⟩
      rcases (hslots j).1 hslot with hold | ⟨rfl, -⟩
      · exact hnone j hold
      · omega

/-- **Every constant is found at its first slot**, and nothing else is found. -/
theorem WellFormed.firstSlot_iff {p : ConstantPool} (h : p.WellFormed) (c : Constant) (i : UInt16) :
    p.firstSlot[c]? = some i ↔ p.IsFirstSlot c i := by
  induction h generalizing i with
  | empty =>
    constructor
    · intro h
      simp [ConstantPool.empty] at h
    · rintro ⟨h, -⟩
      rcases hi : i.toNat with _ | n
      · rw [hi] at h
        cases h
      · rw [hi] at h
        simp [ConstantPool.empty] at h
  | @push p d hp room fits ih =>
    have habsent : p.firstSlot[c]? = none ↔ ∀ j : Nat, p.slots[j]? ≠ some (some c) := by
      constructor
      · intro hnone j hj
        obtain ⟨i, hi⟩ := exists_isFirstSlot hp.size_le hj
        rw [(ih i).2 hi] at hnone
        cases hnone
      · intro hall
        rcases hc : p.firstSlot[c]? with _ | k
        · rfl
        · exact absurd ((ih k).1 hc).1 (hall _)
    rw [isFirstSlot_push room, ← ih, ← habsent]
    have hindex : (p.push d).firstSlot = p.firstSlot.insertIfNew d (UInt16.ofNat p.size) := rfl
    rw [hindex, Std.ExtHashMap.getElem?_insertIfNew]
    have hmem : d ∈ p.firstSlot ↔ p.firstSlot[d]? ≠ none := by
      rw [Std.ExtHashMap.mem_iff_isSome_getElem?, Option.isSome_iff_ne_none]
    by_cases hdc : d = c
    · subst hdc
      rcases hc : p.firstSlot[d]? with _ | k
      · simp [hmem, hc, eq_comm]
      · simp [hmem, hc]
    · simp [hdc, Ne.symm hdc]

theorem WellFormed.firstSlot_eq_none {p : ConstantPool} (h : p.WellFormed) {c : Constant} :
    p.firstSlot[c]? = none ↔ ∀ i : UInt16, ¬ p.IsFirstSlot c i := by
  constructor
  · intro hnone i hi
    rw [(h.firstSlot_iff c i).2 hi] at hnone
    cases hnone
  · intro hall
    rcases hc : p.firstSlot[c]? with _ | k
    · rfl
    · exact absurd ((h.firstSlot_iff c k).1 hc) (hall k)

end ConstantPool

end Rewire
