import Mathlib
import Rewire.Frames.Meaning
import Rewire.Proofs.Frames.Collide

/-!
# Tables of code of which nothing is gone

A layout may move every position that a stack map table mentions and lose none of them. Each frame is
then written in the shape that its new distance needs, which need not be the shape it had. This file
shows that nothing else changes:

* offsets that can be said as distances (`Spaced`): ascending ones that fit two bytes
  (`spaced_of_decreasing`) and those of any table that was read (`spaced_of_readFrames`);
* `exists_addAll` -- frames at such offsets are written and read back, each at its place;
* `readFrames_relocateFrames_mapOffsets` -- the table written for a layout that loses nothing lists the
  same frames with every offset at its place, and the table written for the layout as it was lists the
  frames that the old one lists.
-/

namespace Rewire

open Reader

/-! ## 1. Offsets as distances -/

/-- Whether each offset can be said as a distance from the one before. The last one comes first. -/
def Spaced : List Nat → Prop
  | [] => True
  | n :: rest => IsInReach rest.head? n ∧ Spaced rest

theorem spaced_of_decreasing {offsets : List Nat} (small : ∀ n ∈ offsets, n ≤ 0xffff)
    (h : offsets.Pairwise (· > ·)) : Spaced offsets := by
  induction offsets with
  | nil => trivial
  | cons n rest ih =>
    obtain ⟨hlast, hrest⟩ := List.pairwise_cons.1 h
    obtain ⟨hn, hsmall⟩ := List.forall_mem_cons.1 small
    exact ⟨isInReach_of_le hn fun p hp => hlast p (List.mem_of_mem_head? hp), ih hsmall hrest⟩

/-- **The offsets of a table that was read** were distances there, so they can be said as distances
    again. Its allocations fit two bytes. -/
theorem spaced_of_readFrames {body : Bytes} {frames : List Frame} (h : readFrames body = .ok frames) :
    Spaced (frames.reverse.map Frame.offset) ∧
      ∀ f ∈ frames, ∀ t ∈ f.locals.types ++ f.stack, t.Fits := by
  have hgives := gives_frames
    (P := fun done => Spaced (done.map Frame.offset) ∧
      ∀ f ∈ done, ∀ t ∈ f.locals.types ++ f.stack, t.Fits)
    ⟨trivial, fun f hf => (List.not_mem_nil hf).elim⟩ fun done f hf hdone => by
      refine ⟨⟨⟨f.delta, hf.near, ?_⟩, hdone.1⟩, List.forall_mem_cons.2 ⟨hf.fits, hdone.2⟩⟩
      rw [List.head?_map]
      rfl
  obtain ⟨hspaced, hfits⟩ := hgives.onBytes h
  exact ⟨hspaced, fun f hf => hfits f (List.mem_reverse.2 hf)⟩

/-! ## 2. The run -/

section Run

variable {newOffset : Nat → Option Nat} {place : Nat → Nat}

/-- **Frames are written one after another**, and read back at their places, when these can be said as
    distances. The frames come last first. -/
theorem exists_addAll {done : List Frame} (shapes : ∀ f ∈ done, f.locals.FitsStack f.stack)
    (placed : ∀ f ∈ done, ∀ n ∈ f.offsets, newOffset n = some (place n))
    (fits : ∀ f ∈ done, ∀ t ∈ f.locals.types ++ f.stack, (t.mapSite place).Fits)
    (spaced : Spaced (done.map fun f => place f.offset)) :
    ∃ t : FrameTable, done.reverse.foldlM (FrameTable.add newOffset) {} = .ok t ∧
      t.IsReadAs (done.map (Frame.mapOffsets place)) ∧ t.carried = .nothing ∧
      t.written.length = done.length := by
  induction done with
  | nil => exact ⟨{}, rfl, FrameTable.isReadAs_start, rfl, rfl⟩
  | cons f rest ih =>
    rw [List.forall_mem_cons] at shapes placed fits
    obtain ⟨hreach, hspaced⟩ := spaced
    obtain ⟨t, ht, hread, hcarried, hlength⟩ := ih shapes.2 placed.2 fits.2 hspaced
    -- The last offset written is the place of the last frame seen.
    have hprevious : t.previous = (rest.map fun f => place f.offset).head? := by
      rw [hread.previous, lastOffset?, List.head?_map, List.head?_map, Option.map_map]
      rfl
    rw [← hprevious] at hreach
    obtain ⟨bytes, hadd, hshort, hbytes⟩ :=
      FrameTable.exists_add shapes.1 placed.1 fits.1 hcarried hreach
    refine ⟨_, ?_, hread.write (hbytes _ hread.previous) hshort .nothing, rfl,
      congrArg (· + 1) hlength⟩
    rw [List.reverse_cons, List.foldlM_append]
    exact bind_eq_ok.2 ⟨t, ht, bind_eq_ok.2 ⟨_, hadd, rfl⟩⟩

/-- A table whose offsets stay, at places that can be said as distances, is relocated and read back. -/
theorem exists_relocateFrames_of_spaced {body : Bytes} {frames : List Frame}
    (hframes : readFrames body = .ok frames)
    (placed : ∀ f ∈ frames, ∀ n ∈ f.offsets, newOffset n = some (place n))
    (fits : ∀ f ∈ frames, ∀ t ∈ f.locals.types ++ f.stack, (t.mapSite place).Fits)
    (spaced : Spaced (frames.reverse.map fun f => place f.offset)) :
    ∃ out, relocateFrames newOffset body = .ok out ∧
      readFrames out = .ok (frames.map (Frame.mapOffsets place)) := by
  have hshapes := (shaped_of_readFrames hframes).1
  obtain ⟨t, ht, hread, -, hlength⟩ := exists_addAll
    (fun f hf => hshapes f (List.mem_reverse.1 hf)) (fun f hf => placed f (List.mem_reverse.1 hf))
    (fun f hf => fits f (List.mem_reverse.1 hf)) spaced
  rw [List.reverse_reverse] at ht
  refine ⟨t.bytes, bind_eq_ok.2 ⟨frames, hframes, bind_eq_ok.2 ⟨t, ht, rfl⟩⟩, ?_⟩
  have hfew : t.written.length ≤ 0xffff := by
    rw [hlength, List.length_reverse]
    exact length_readFrames_le hframes
  rw [hread.readFrames_bytes hfew, List.map_reverse, List.reverse_reverse]

end Run

/-! ## 3. Relocated tables -/

/-- **A table loses nothing where no position is lost.** When every offset that it mentions has a place
    that fits two bytes, and the places of its frames ascend as their offsets do, it is relocated, and
    the new table lists the same changes and stacks with every offset at its place. When nothing moves
    at all, whatever the offsets are, the new table lists what the old one lists. -/
theorem readFrames_relocateFrames_mapOffsets {body : Bytes} {frames : List Frame}
    (hframes : readFrames body = .ok frames) :
    (∀ (newOffset : Nat → Option Nat) (place : Nat → Nat),
      (∀ n ∈ frames.flatMap Frame.offsets, newOffset n = some (place n) ∧ place n ≤ 0xffff) →
      (∀ f ∈ frames, ∀ g ∈ frames, f.offset < g.offset → place f.offset < place g.offset) →
      ∃ out, relocateFrames newOffset body = .ok out ∧
        readFrames out = .ok (frames.map (Frame.mapOffsets place))) ∧
      ∃ out, relocateFrames some body = .ok out ∧ readFrames out = .ok frames := by
  constructor
  · intro newOffset place hplaces hascending
    have hplaced : ∀ f ∈ frames, ∀ n ∈ f.offsets, newOffset n = some (place n) ∧ place n ≤ 0xffff :=
      fun f hf n hn => hplaces n (List.mem_flatMap.2 ⟨f, hf, hn⟩)
    refine exists_relocateFrames_of_spaced hframes (fun f hf n hn => (hplaced f hf n hn).1)
      (fun f hf t ht => fits_mapSite fun site hsite =>
        (hplaced f hf site (mem_offsets_of_site ht hsite)).2) (spaced_of_decreasing ?_ ?_)
    · intro n hn
      obtain ⟨f, hf, rfl⟩ := List.mem_map.1 hn
      exact (hplaced f (List.mem_reverse.1 hf) _ List.mem_cons_self).2
    · rw [List.map_reverse, List.pairwise_reverse, List.pairwise_map]
      exact (shaped_of_readFrames hframes).2.imp_of_mem fun hf hg hlt => hascending _ hf _ hg hlt
  · obtain ⟨hspaced, hfits⟩ := spaced_of_readFrames hframes
    have h : ∃ out, relocateFrames some body = .ok out ∧
        readFrames out = .ok (frames.map (Frame.mapOffsets id)) :=
      exists_relocateFrames_of_spaced hframes (fun f hf n hn => rfl) (fun f hf t ht => by
        rw [VerificationType.mapSite_id]
        exact hfits f hf t ht) hspaced
    rwa [Frame.mapOffsets_id, List.map_id] at h

/-- Code that grew: position 10 is now 110, and position 80 is 300. -/
def stretched (n : Nat) : Nat :=
  if n = 10 then 110 else 300

/-- The first distance no longer fits the first byte of its frame, and the allocation of the second
    frame moves along with the position it is at. -/
theorem readFrames_relocateFrames_stretched :
    readFrames [0, 2, 10, 247, 0, 69, 8, 0, 10] =
        .ok [⟨10, .same, []⟩, ⟨80, .same, [.uninitialized 10]⟩] ∧
      ∃ out, relocateFrames (some ∘ stretched) [0, 2, 10, 247, 0, 69, 8, 0, 10] = .ok out ∧
        readFrames out = .ok [⟨110, .same, []⟩, ⟨300, .same, [.uninitialized 110]⟩] := by
  have hframes : readFrames [0, 2, 10, 247, 0, 69, 8, 0, 10] =
      .ok [⟨10, .same, []⟩, ⟨80, .same, [.uninitialized 10]⟩] := rfl
  exact ⟨hframes, (readFrames_relocateFrames_mapOffsets hframes).1 (some ∘ stretched) stretched
    (by decide) (by decide)⟩

end Rewire
