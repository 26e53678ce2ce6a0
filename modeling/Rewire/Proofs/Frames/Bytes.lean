import Mathlib
import Rewire.Frames.Relocate
import Rewire.Frames.Meaning
import Rewire.Proofs.Bytes.Reads

/-!
# The bytes of frames

Each shape in which a frame is written is read as the frame again. This file fixes

* types whose allocation site fits the two bytes it is written in (`VerificationType.Fits`), which
  are read as they were written (`reads_verificationType`);
* the shapes of frames, one lemma for each (`reads_frame_same`, `reads_frame_item`,
  `reads_frame_append`, `reads_frame_chop`, `reads_frame_full`);
* a table as its frames read one after another (`frameStep`, `reads_frames`), at most as many as
  its count can say (`length_readFrames_le`).
-/

namespace Rewire

open Reader

/-! ## 1. Types -/

/-- Whether a type's allocation site fits two bytes. -/
def VerificationType.Fits (t : VerificationType) : Prop :=
  ∀ site ∈ t.site?, site ≤ 0xffff

theorem reads_verificationType {t : VerificationType} (fits : t.Fits) :
    Reads verificationType t.bytes t := by
  unfold verificationType
  cases t with
  | object index => exact reads_bind (reads_u8 7) (reads_map VerificationType.object (reads_u16 index))
  | uninitialized site =>
    have hsite : (UInt16.ofNat site).toNat = site := by
      have := fits site rfl
      rw [UInt16.toNat_ofNat']
      omega
    have h := reads_map (fun v : UInt16 => VerificationType.uninitialized v.toNat)
      (reads_u16 (UInt16.ofNat site))
    rw [hsite] at h
    exact reads_bind (reads_u8 8) h
  | _ => exact reads_bind (reads_u8 _) (reads_pure _)

theorem reads_types {types : List VerificationType} (fits : ∀ t ∈ types, t.Fits) :
    Reads (times types.length verificationType) (types.flatMap VerificationType.bytes) types := by
  have h := reads_times id fun t ht => reads_verificationType (fits t ht)
  rwa [List.map_id] at h

/-! ## 2. Shapes -/

section Shapes

variable {delta : UInt16} {item : VerificationType} {types stack : List VerificationType}

theorem reads_frame_same :
    Reads frameDelta (if delta ≤ shortDelta then [delta.toUInt8] else 251 :: be16 delta)
      ⟨delta.toNat, .same, []⟩ := by
  unfold frameDelta
  by_cases h : delta ≤ shortDelta
  · have hle : delta.toNat ≤ 63 := h
    have htag : delta.toUInt8.toNat = delta.toNat := by
      rw [UInt16.toNat_toUInt8]
      omega
    rw [if_pos h, ← htag]
    refine reads_u8_bind _ ?_
    rw [if_pos (by rw [UInt8.le_iff_toNat_le, htag]; exact hle)]
    exact reads_pure _
  · rw [if_neg h]
    refine reads_u8_bind 251 ?_
    exact reads_map (fun d : UInt16 => FrameDelta.mk d.toNat .same []) (reads_u16 delta)

theorem reads_frame_item (fits : item.Fits) :
    Reads frameDelta
      (if delta ≤ shortDelta then (64 + delta.toUInt8) :: item.bytes
        else 247 :: be16 delta ++ item.bytes)
      ⟨delta.toNat, .same, [item]⟩ := by
  unfold frameDelta
  by_cases h : delta ≤ shortDelta
  · have hle : delta.toNat ≤ 63 := h
    have htag : (64 + delta.toUInt8).toNat = 64 + delta.toNat := by
      rw [UInt8.toNat_add, UInt16.toNat_toUInt8]
      simp
      omega
    have hdelta : (64 + delta.toUInt8).toNat - 64 = delta.toNat := by omega
    rw [if_pos h, ← hdelta]
    refine reads_u8_bind _ ?_
    rw [if_neg (by rw [UInt8.le_iff_toNat_le, htag]; simp; omega),
      if_pos (by rw [UInt8.le_iff_toNat_le, htag]; simp; omega)]
    exact reads_map (fun t => FrameDelta.mk ((64 + delta.toUInt8).toNat - 64) .same [t])
      (reads_verificationType fits)
  · rw [if_neg h]
    refine reads_u8_bind 247 ?_
    refine reads_u16_bind delta ?_
    exact reads_map (fun t => FrameDelta.mk delta.toNat .same [t]) (reads_verificationType fits)

theorem reads_frame_append (few : types.length ≤ shortChange) (some : types ≠ [])
    (fits : ∀ t ∈ types, t.Fits) :
    Reads frameDelta
      (UInt8.ofNat (251 + types.length) :: be16 delta ++ types.flatMap VerificationType.bytes)
      ⟨delta.toNat, .append types, []⟩ := by
  unfold frameDelta
  have hlen : 0 < types.length := List.length_pos_iff.2 some
  have hle : types.length ≤ 3 := few
  have h := reads_types fits
  have hcases : types.length = 1 ∨ types.length = 2 ∨ types.length = 3 := by omega
  rcases hcases with hn | hn | hn <;>
  · rw [hn] at h ⊢
    refine reads_u8_bind _ ?_
    refine reads_u16_bind delta ?_
    exact reads_map (fun ts => FrameDelta.mk delta.toNat (.append ts) []) h

theorem reads_frame_chop {count : Nat} (few : count ≤ shortChange) (some : count ≠ 0) :
    Reads frameDelta (UInt8.ofNat (251 - count) :: be16 delta) ⟨delta.toNat, .chop count, []⟩ := by
  unfold frameDelta
  have hle : count ≤ 3 := few
  have hcases : count = 1 ∨ count = 2 ∨ count = 3 := by omega
  rcases hcases with rfl | rfl | rfl <;>
  · refine reads_u8_bind _ ?_
    exact reads_map (fun d : UInt16 => FrameDelta.mk d.toNat (.chop _) []) (reads_u16 delta)

theorem reads_frame_full {localCount stackCount : UInt16}
    (hlocals : localCount.toNat = types.length) (hstack : stackCount.toNat = stack.length)
    (fits : ∀ t ∈ types, t.Fits) (stackFits : ∀ t ∈ stack, t.Fits) :
    Reads frameDelta
      (255 :: be16 delta ++ be16 localCount ++ types.flatMap VerificationType.bytes ++
        be16 stackCount ++ stack.flatMap VerificationType.bytes)
      ⟨delta.toNat, .full types, stack⟩ := by
  have hread := reads_types fits
  have hreadStack := reads_types stackFits
  rw [← hlocals] at hread
  rw [← hstack] at hreadStack
  have hrest : Reads (do
      let stack ← times (← u16).toNat verificationType
      return FrameDelta.mk delta.toNat (.full types) stack)
      (be16 stackCount ++ stack.flatMap VerificationType.bytes)
      ⟨delta.toNat, .full types, stack⟩ :=
    reads_bind (reads_u16 stackCount) (reads_map (FrameDelta.mk delta.toNat (.full types)) hreadStack)
  unfold frameDelta
  simp only [List.cons_append, List.append_assoc]
  refine reads_u8_bind 255 ?_
  refine reads_u16_bind delta ?_
  refine reads_u16_bind localCount ?_
  exact reads_bind hread hrest

end Shapes

/-! ## 3. Tables -/

/-- Reads the next frame of a table; `done` holds the frames before it, last first. -/
def frameStep (done : List Frame) : Reader (List Frame) := do
  let f ← frameDelta
  return ⟨frameOffset (lastOffset? done) f.delta, f.locals, f.stack⟩ :: done

theorem reads_frameStep {bytes : Bytes} {f : FrameDelta} (done : List Frame)
    (h : Reads frameDelta bytes f) :
    Reads (frameStep done) bytes
      (⟨frameOffset (lastOffset? done) f.delta, f.locals, f.stack⟩ :: done) :=
  reads_map (fun f : FrameDelta =>
    (⟨frameOffset (lastOffset? done) f.delta, f.locals, f.stack⟩ : Frame) :: done) h

theorem reads_frames {count : Nat} {bytes : Bytes} {done : List Frame} (small : count ≤ 0xffff)
    (h : Reads (repeated count frameStep []) bytes done) :
    Reads Reader.frames (be16 (UInt16.ofNat count) ++ bytes) done.reverse := by
  have hcount : (UInt16.ofNat count).toNat = count := by
    rw [UInt16.toNat_ofNat']
    omega
  rw [← hcount] at h
  exact reads_bind (reads_u16 _) (reads_map List.reverse h)

theorem length_repeated_frameStep {count : Nat} {done : List Frame} {c c' : Cursor}
    (h : repeated count frameStep [] c = .ok (done, c')) : done.length = count := by
  induction count generalizing done c' with
  | zero =>
    rw [repeated_zero] at h
    rw [← (Reader.pure_eq_ok.1 h).1]
    rfl
  | succ count ih =>
    rw [repeated_succ] at h
    obtain ⟨before, d, hbefore, h⟩ := Reader.bind_eq_ok.1 h
    obtain ⟨f, d', -, h⟩ := Reader.bind_eq_ok.1 h
    rw [← (Reader.pure_eq_ok.1 h).1, List.length_cons, ih hbefore]

/-- A table lists at most as many frames as its two-byte count can say. -/
theorem length_readFrames_le {body : Bytes} {frames : List Frame}
    (h : readFrames body = .ok frames) : frames.length ≤ 0xffff := by
  obtain ⟨⟨frames', c⟩, hread, heq⟩ := bind_eq_ok.1 h
  cases heq
  obtain ⟨count, d, -, hread⟩ := Reader.bind_eq_ok.1 hread
  obtain ⟨done, d', hdone, hread⟩ := Reader.bind_eq_ok.1 hread
  have hlen : done.length = count.toNat := length_repeated_frameStep hdone
  rw [← (Reader.pure_eq_ok.1 hread).1, List.length_reverse, hlen]
  have := count.toNat_lt
  omega

end Rewire
