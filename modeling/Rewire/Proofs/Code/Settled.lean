import Mathlib
import Rewire.Proofs.Bytes.Fit
import Rewire.Proofs.Code.Placement
import Rewire.Proofs.Faults

/-!
# Layouts that fit 32 bits

Sizes and offsets are computed in 32-bit words. This file shows that nothing is lost: a layout in
words is the layout in numbers, and there is one whenever the code ends before 2^32:

* the size of an element is its length (`Piece.size_eq_ok`), and the offsets of elements are where
  those before them end (`placeAll_eq_ok`);
* code never ends earlier when jumps become wide (`endFrom_le_widenAll`), so the last layout is the
  one to look at (`Layout.settle_eq_ok`);
* computing a layout fails over sizes and offsets that are no words, and over nothing else
  (`Layout.failsBy_settle`).
-/

namespace Rewire

/-! ## 1. Sizes -/

section Sizes

variable {offset n : UInt32} {operand : UInt16} {wide : Bool}

theorem pure_word_eq_ok {c : UInt32} : (pure c : Outcome UInt32) = .ok n ↔ n.toNat = c.toNat := by
  rw [pure_eq_ok, UInt32.toNat_inj, eq_comm]

theorem padding_le (offset : Nat) : padding offset ≤ 3 := by
  unfold padding
  omega

theorem switchSize_eq_ok {fixed each : UInt32} {entries : Nat} (hfixed : fixed ≤ 12) :
    switchSize offset fixed each entries = .ok n ↔
      n.toNat = 1 + padding offset.toNat + fixed.toNat + each.toNat * countedEntries entries := by
  have hpadding := padding_le offset.toNat
  have hle : fixed.toNat ≤ 12 := hfixed
  have hhead : (1 + UInt32.ofNat (padding offset.toNat) + fixed).toNat =
      1 + padding offset.toNat + fixed.toNat := by
    rw [UInt32.toNat_add, UInt32.toNat_add, toNat_ofNat32 (by omega)]
    show ((1 + padding offset.toNat) % 4294967296 + fixed.toNat) % 4294967296 = _
    omega
  simp only [switchSize, bind_eq_ok, timesWord32_eq_ok, addWord32_eq_ok, hhead]
  constructor
  · rintro ⟨table, htable, hn⟩
    rw [hn, htable]
    rfl
  · intro hn
    have hlt := n.toNat_lt
    have htable : (UInt32.ofNat (each.toNat * countedEntries entries)).toNat =
        each.toNat * countedEntries entries := toNat_ofNat32 (by omega)
    exact ⟨_, htable, by rw [hn, htable]⟩

theorem toNat_jumpSize (op : UInt8) : (jumpSize op wide).toNat = jumpLength op wide := by
  unfold jumpSize jumpLength
  split_ifs <;> rfl

/-- The size of an instruction is its length. -/
theorem Insn.size_eq_ok {i : Insn} :
    i.size offset operand wide = .ok n ↔ n.toNat = i.length offset.toNat operand wide := by
  cases i with
  | simple | field | type | invokeDynamic | multiANewArray => exact pure_word_eq_ok
  | jump op l => rw [Insn.size, pure_word_eq_ok, toNat_jumpSize, Insn.length]
  | tableSwitch low high default targets => exact switchSize_eq_ok (by decide)
  | lookupSwitch default pairs => exact switchSize_eq_ok (by decide)
  | int | ldc | var | iinc | call =>
    rw [Insn.size, pure_word_eq_ok, Insn.length]
    split_ifs <;> rfl

theorem Piece.size_eq_ok {p : Piece} : p.size offset = .ok n ↔ n.toNat = p.length offset.toNat := by
  unfold Piece.size Piece.length
  cases p.node with
  | insn i => exact Insn.size_eq_ok
  | label | line => exact pure_word_eq_ok

end Sizes

/-! ## 2. Offsets -/

/-- Elements are placed in words where they are in numbers, if the last ends at a word. -/
theorem placeFrom_eq_ok {done : Array UInt32} {offset : UInt32} {pieces : List Piece}
    {offsets : Array Nat} :
    (∃ words, placeFrom done offset pieces = .ok words ∧ words.map UInt32.toNat = offsets) ↔
      offsets = offsetsFrom (done.map UInt32.toNat) offset.toNat pieces ∧
        endFrom offset.toNat pieces < 0x100000000 := by
  induction pieces generalizing done offset with
  | nil =>
    have hlt : endFrom offset.toNat [] < 0x100000000 := offset.toNat_lt
    rw [and_iff_left hlt, offsetsFrom, ← Array.map_push]
    constructor
    · rintro ⟨words, hwords, rfl⟩
      cases hwords
      rfl
    · rintro rfl
      exact ⟨_, rfl, rfl⟩
  | cons p rest ih =>
    rw [offsetsFrom, endFrom, ← Array.map_push]
    constructor
    · rintro ⟨words, hwords, hmap⟩
      obtain ⟨size, hsize, hwords⟩ := bind_eq_ok.1 hwords
      obtain ⟨next, hnext, hwords⟩ := bind_eq_ok.1 hwords
      have hrest := ih.1 ⟨words, hwords, hmap⟩
      rwa [addWord32_eq_ok.1 hnext, Piece.size_eq_ok.1 hsize] at hrest
    · rintro ⟨hoffsets, hlt⟩
      have hend := le_endFrom (offset.toNat + p.length offset.toNat) rest
      have hsize : (UInt32.ofNat (p.length offset.toNat)).toNat = p.length offset.toNat :=
        toNat_ofNat32 (by omega)
      have hnext : (UInt32.ofNat (offset.toNat + p.length offset.toNat)).toNat =
          offset.toNat + p.length offset.toNat := toNat_ofNat32 (by omega)
      rw [← hnext] at hoffsets hlt
      obtain ⟨words, hwords, hmap⟩ := ih.2 ⟨hoffsets, hlt⟩
      exact ⟨words, bind_eq_ok.2 ⟨_, Piece.size_eq_ok.2 hsize, bind_eq_ok.2
        ⟨_, addWord32_eq_ok.2 (by rw [hnext, hsize]), hwords⟩⟩, hmap⟩

theorem placeAll_eq_ok {pieces : List Piece} {offsets : Array Nat} :
    placeAll pieces = .ok offsets ↔
      offsets = pieceOffsets pieces ∧ endFrom 0 pieces < 0x100000000 := by
  have hplace : (∃ words, placeFrom #[] 0 pieces = .ok words ∧ words.map UInt32.toNat = offsets) ↔
      offsets = pieceOffsets pieces ∧ endFrom 0 pieces < 0x100000000 := by
    simpa [pieceOffsets] using @placeFrom_eq_ok #[] 0 pieces offsets
  rw [← hplace, placeAll, bind_eq_ok]
  simp only [pure_eq_ok]

/-! ## 3. Widening -/

/-- An instruction that starts no later and is not wider ends no later: as much as the padding of a
    switch may shrink, it starts later. -/
theorem Insn.end_le {i : Insn} {operand : UInt16} {wide wide' : Bool} {offset offset' : Nat}
    (hle : offset ≤ offset') (hwide : wide = true → wide' = true) :
    offset + i.length offset operand wide ≤ offset' + i.length offset' operand wide' := by
  cases i with
  | tableSwitch low high default targets =>
    simp only [Insn.length, tableSwitchLength, padding]
    omega
  | lookupSwitch default pairs =>
    simp only [Insn.length, lookupSwitchLength, padding]
    omega
  | jump op l =>
    refine Nat.add_le_add hle ?_
    show jumpLength op wide ≤ jumpLength op wide'
    cases wide with
    | false =>
      cases wide' with
      | false => exact Nat.le_refl _
      | true =>
        show 3 ≤ if op = Opcode.goto ∨ op = Opcode.jsr then 5 else 8
        split <;> decide
    | true => rw [hwide rfl]
  | _ => exact Nat.add_le_add_right hle _

theorem Piece.end_le_widen {p : Piece} {target : Label → Nat} {place offset offset' : Nat}
    (hle : offset ≤ offset') :
    offset + p.length offset ≤ offset' + (Piece.widen target (p, place)).length offset' := by
  have hwide : p.wide = true → (Piece.widen target (p, place)).wide = true := by
    unfold Piece.widen
    split
    · exact fun _ => rfl
    · exact id
  have hsame : (Piece.widen target (p, place)).node = p.node ∧
      (Piece.widen target (p, place)).operand = p.operand := by
    unfold Piece.widen
    split <;> exact ⟨rfl, rfl⟩
  unfold Piece.length
  rw [hsame.1, hsame.2]
  cases p.node with
  | insn i => exact Insn.end_le hle hwide
  | label | line => exact hle

theorem endFrom_widen_le (target : Label → Nat) (placed : List (Piece × Nat)) {offset offset' : Nat}
    (hle : offset ≤ offset') :
    endFrom offset (placed.map Prod.fst) ≤ endFrom offset' (placed.map (Piece.widen target)) := by
  induction placed generalizing offset offset' with
  | nil => exact hle
  | cons a rest ih => exact ih (Piece.end_le_widen hle)

/-- Code never ends earlier when jumps become wide. -/
theorem endFrom_le_widenAll (positions : Std.HashMap Label Nat) (pieces : List Piece) :
    endFrom 0 pieces ≤ endFrom 0 (widenAll positions pieces) := by
  fun_induction widenAll positions pieces with
  | case1 pieces offsets target placed h _ ih =>
    have hround := endFrom_widen_le target placed (Nat.le_refl 0)
    rw [show placed.map Prod.fst = pieces from map_fst_placedPieces pieces] at hround
    exact hround.trans ih
  | case2 => exact Nat.le_refl _

/-! ## 4. Layouts -/

/-- Widening in words goes through the rounds of widening in numbers, if the last of these ends at a
    word. -/
theorem Layout.settle_eq_ok_endFrom {positions : Std.HashMap Label Nat} {pieces : List Piece}
    {l : Layout} : Layout.settle positions pieces = .ok l ↔ l = Layout.ofPieces positions pieces ∧
      endFrom 0 (widenAll positions pieces) < 0x100000000 := by
  simp only [ofPieces]
  fun_induction widenAll positions pieces with
  | case1 pieces offsets target placed h hless ih =>
    refine Iff.trans ?_ ih
    rw [settle, bind_eq_ok]
    constructor
    · rintro ⟨offsets', hoffsets, hl⟩
      obtain ⟨rfl, -⟩ := placeAll_eq_ok.1 hoffsets
      simp only at hl
      rwa [dif_pos h] at hl
    · intro hl
      have hround := endFrom_widen_le target placed (Nat.le_refl 0)
      rw [show placed.map Prod.fst = pieces from map_fst_placedPieces pieces] at hround
      have hend := endFrom_le_widenAll positions (placed.map (Piece.widen target))
      have hlt := (ih.1 hl).2
      refine ⟨_, placeAll_eq_ok.2 ⟨rfl, by omega⟩, ?_⟩
      simp only
      rwa [dif_pos h]
  | case2 pieces offsets target placed h =>
    rw [settle, bind_eq_ok]
    constructor
    · rintro ⟨offsets', hoffsets, hl⟩
      obtain ⟨rfl, hlt⟩ := placeAll_eq_ok.1 hoffsets
      simp only at hl
      rw [dif_neg h] at hl
      cases hl
      exact ⟨rfl, hlt⟩
    · rintro ⟨rfl, hlt⟩
      refine ⟨_, placeAll_eq_ok.2 ⟨rfl, hlt⟩, ?_⟩
      simp only
      rw [dif_neg h]
      rfl

/-- **A layout in words is the layout in numbers**, and there is one if its code ends at a word. -/
theorem Layout.settle_eq_ok {positions : Std.HashMap Label Nat} {pieces : List Piece} {l : Layout} :
    Layout.settle positions pieces = .ok l ↔
      l = Layout.ofPieces positions pieces ∧ l.codeLength < 0x100000000 := by
  have hlength : (ofPieces positions pieces).codeLength = endFrom 0 (widenAll positions pieces) :=
    (consistent_ofPieces positions pieces).codeLength_eq
  rw [settle_eq_ok_endFrom, ← hlength]
  exact and_congr_right fun h => by rw [h]

/-! ## 5. Failures -/

section Failures

variable {kind : Fault → Prop} (overflow : ∀ verb, kind (.overflow verb))

include overflow

theorem failsBy_addWord32 (a b : UInt32) : FailsBy kind (addWord32 a b) := by
  unfold addWord32
  split
  · exact failsBy_ok _
  · exact failsBy_fail (overflow _)

theorem failsBy_timesWord32 (a b : UInt32) : FailsBy kind (timesWord32 a b) := by
  unfold timesWord32
  split
  · exact failsBy_ok _
  · exact failsBy_fail (overflow _)

theorem Piece.failsBy_size (p : Piece) (offset : UInt32) : FailsBy kind (p.size offset) := by
  have hswitch : ∀ fixed each entries, FailsBy kind (switchSize offset fixed each entries) :=
    fun _ _ _ => (failsBy_timesWord32 overflow _ _).bind fun _ _ => failsBy_addWord32 overflow _ _
  unfold Piece.size
  cases p.node with
  | label | line => exact failsBy_pure _
  | insn i =>
    cases i with
    | tableSwitch | lookupSwitch => exact hswitch _ _ _
    | _ => exact failsBy_pure _

theorem failsBy_placeFrom (done : Array UInt32) (offset : UInt32) (pieces : List Piece) :
    FailsBy kind (placeFrom done offset pieces) := by
  induction pieces generalizing done offset with
  | nil => exact failsBy_pure _
  | cons p rest ih =>
    exact (Piece.failsBy_size overflow p offset).bind fun _ _ =>
      (failsBy_addWord32 overflow _ _).bind fun _ _ => ih _ _

/-- Computing a layout only fails over sizes and offsets that are no words. -/
theorem Layout.failsBy_settle (positions : Std.HashMap Label Nat) (pieces : List Piece) :
    FailsBy kind (Layout.settle positions pieces) := by
  fun_induction Layout.settle positions pieces with
  | case1 pieces ih =>
    refine FailsBy.bind ((failsBy_placeFrom overflow _ _ _).bind fun _ _ => failsBy_pure _)
      fun offsets _ => ?_
    simp only
    split
    · rename_i h
      exact ih offsets h
    · exact failsBy_pure _

end Failures

end Rewire
