import Mathlib
import Rewire.Proofs.Frames.Relocate

/-!
# Tables that can be relocated

Relocating a stack map table fails when two frames land at one offset, when a distance is too great,
when an allocation is gone, or when a frame cannot express what it has to. This file shows

* the shapes of frames that are read (`LocalsChange.FitsStack`), at ascending offsets
  (`shaped_of_readFrames`), which are 32-bit numbers (`lt_of_readFrames`);
* that a frame in such a shape can be written again, and is read back with the same change and stack
  (`exists_frameBytes`);
* that a table is relocated where allocations stay, frames keep their order and only last ones are
  left out, unless two frames land at one offset (`exists_relocateFrames`).
-/

namespace Rewire

open Reader

/-! ## 1. Shapes -/

/-- Whether a frame can say a change of the locals together with a stack. -/
def LocalsChange.FitsStack (stack : List VerificationType) : LocalsChange → Prop
  | .same => stack.length ≤ 1
  | .chop count => 0 < count ∧ count ≤ shortChange ∧ stack.length = 0
  | .append types => 0 < types.length ∧ types.length ≤ shortChange ∧ stack.length = 0
  | .full types => types.length ≤ 0xffff ∧ stack.length ≤ 0xffff

theorem LocalsChange.FitsStack.of_length {change : LocalsChange} {stack moved : List VerificationType}
    (h : change.FitsStack stack) (hlength : stack.length = moved.length) : change.FitsStack moved := by
  cases change <;> simpa only [FitsStack, hlength] using h

/-- An allocation is read from two bytes. -/
theorem gives_verificationType : Gives verificationType VerificationType.Fits := by
  have hplain : ∀ t : VerificationType, t.site? = none → Gives (pure t) VerificationType.Fits :=
    fun t ht => gives_pure fun site hsite => by
      rw [ht] at hsite
      cases hsite
  unfold verificationType
  refine gives_bind gives_any fun tag _ => ?_
  split
  case h_8 => exact gives_bind gives_any fun _ _ => hplain _ rfl
  case h_9 =>
    refine gives_bind gives_any fun site _ => gives_pure fun n hn => ?_
    cases hn
    exact Nat.le_of_lt_succ site.toNat_lt
  case h_10 => exact gives_lift fun _ h => absurd h (fail_ne_ok _ _)
  all_goals exact hplain _ rfl

/-- What holds of every frame that is read: its change goes with its stack, and the numbers in it
    fit two bytes. -/
structure Reader.FrameDelta.IsShaped (f : FrameDelta) : Prop where
  shape : f.locals.FitsStack f.stack
  near : f.delta ≤ 0xffff
  fits : ∀ t ∈ f.locals.types ++ f.stack, t.Fits

/-- Frames are read in shapes that they can have. -/
theorem gives_frameDelta : Gives frameDelta FrameDelta.IsShaped := by
  have hitem : ∀ delta, delta ≤ 0xffff →
      Gives (do return ⟨delta, .same, [← verificationType]⟩) FrameDelta.IsShaped :=
    fun delta hdelta => gives_bind gives_verificationType fun item hitem =>
      gives_pure ⟨Nat.le_refl 1, hdelta, List.forall_mem_singleton.2 hitem⟩
  have hplain : ∀ (delta : Nat) (change : LocalsChange), delta ≤ 0xffff → change.FitsStack [] →
      change.types = [] → Gives (pure ⟨delta, change, []⟩) FrameDelta.IsShaped :=
    fun delta change hdelta hshape htypes => gives_pure ⟨hshape, hdelta, fun t ht => by
      simp only [htypes, List.append_nil, List.not_mem_nil] at ht⟩
  unfold frameDelta
  refine gives_bind gives_any fun tag _ => ?_
  have htag : tag.toNat ≤ 0xff := Nat.le_of_lt_succ tag.toNat_lt
  split
  · exact hplain _ .same (by omega) (Nat.zero_le 1) rfl
  split
  · exact hitem _ (by omega)
  split
  · exact gives_lift fun _ h => absurd h (fail_ne_ok _ _)
  rename_i hlow
  have hlow : 246 < tag.toNat := Nat.lt_of_not_le hlow
  refine gives_bind gives_any fun delta _ => ?_
  have hdelta : delta.toNat ≤ 0xffff := Nat.le_of_lt_succ delta.toNat_lt
  split
  · exact hitem _ hdelta
  rename_i htag
  have htag : tag.toNat ≠ 247 := fun h => htag (UInt8.toNat_inj.1 h)
  split
  · rename_i hchop
    have hchop : tag.toNat ≤ 250 := hchop
    refine hplain _ (.chop (251 - tag.toNat)) hdelta ⟨?_, ?_, rfl⟩ rfl
    · omega
    · show 251 - tag.toNat ≤ 3
      omega
  rename_i hchop
  have hchop : 250 < tag.toNat := Nat.lt_of_not_le hchop
  split
  · exact hplain _ .same hdelta (Nat.zero_le 1) rfl
  rename_i hsame
  have hsame : tag.toNat ≠ 251 := fun h => hsame (UInt8.toNat_inj.1 h)
  split
  · rename_i happend
    have happend : tag.toNat ≤ 254 := happend
    refine gives_bind ((gives_times _ _).and (gives_times_forall gives_verificationType _))
      fun types htypes => gives_pure ⟨⟨?_, ?_, rfl⟩, hdelta, ?_⟩
    · have hlength := htypes.1
      omega
    · have hlength := htypes.1
      show types.length ≤ 3
      omega
    · simpa [LocalsChange.types] using htypes.2
  · refine gives_bind gives_any fun localCount _ =>
      gives_bind ((gives_times _ _).and (gives_times_forall gives_verificationType _))
        fun locals hlocals => gives_bind gives_any fun stackCount _ =>
          gives_bind ((gives_times _ _).and (gives_times_forall gives_verificationType _))
            fun stack hstack => gives_pure ⟨⟨?_, ?_⟩, hdelta, ?_⟩
    · rw [hlocals.1]
      exact Nat.le_of_lt_succ localCount.toNat_lt
    · rw [hstack.1]
      exact Nat.le_of_lt_succ stackCount.toNat_lt
    · exact List.forall_mem_append.2 ⟨hlocals.2, hstack.2⟩

/-- What the frames read one after another keep, last first. -/
theorem gives_frames {P : List Frame → Prop} (start : P [])
    (step : ∀ done f, FrameDelta.IsShaped f → P done →
      P (⟨frameOffset (lastOffset? done) f.delta, f.locals, f.stack⟩ :: done)) :
    Gives Reader.frames fun frames => P frames.reverse := by
  have hstep : ∀ done, P done → Gives (frameStep done) P := fun done hdone =>
    gives_bind gives_frameDelta fun f hf => gives_pure (step done f hf hdone)
  refine gives_bind gives_any fun count _ => ?_
  refine gives_bind (gives_repeated hstep count.toNat start) fun done hdone => gives_pure ?_
  rwa [List.reverse_reverse]

/-- The frames read so far, last first: each in a shape it can have, at decreasing offsets. -/
def AreShaped (done : List Frame) : Prop :=
  (∀ f ∈ done, f.locals.FitsStack f.stack) ∧ (done.map Frame.offset).Pairwise (· > ·)

/-- A frame that is read next keeps the shapes and the order. -/
theorem AreShaped.cons {done : List Frame} {f : FrameDelta} (hf : f.IsShaped) (h : AreShaped done) :
    AreShaped (⟨frameOffset (lastOffset? done) f.delta, f.locals, f.stack⟩ :: done) := by
  refine ⟨List.forall_mem_cons.2 ⟨hf.shape, h.1⟩, ?_⟩
  rw [List.map_cons, List.pairwise_cons]
  refine ⟨fun n hn => ?_, h.2⟩
  cases done with
  | nil => cases hn
  | cons g rest =>
    have hlast : n ≤ g.offset := by
      rcases List.mem_cons.1 hn with rfl | hn
      · exact Nat.le_refl _
      · exact Nat.le_of_lt ((List.pairwise_cons.1 h.2).1 n hn)
    show n < g.offset + f.delta + 1
    omega

/-- **The frames of a table** have shapes that they can have, and ascending offsets. -/
theorem shaped_of_readFrames {body : Bytes} {frames : List Frame} (h : readFrames body = .ok frames) :
    (∀ f ∈ frames, f.locals.FitsStack f.stack) ∧
      frames.Pairwise fun f g => f.offset < g.offset := by
  have hstart : AreShaped [] := ⟨fun f hf => (List.not_mem_nil hf).elim, .nil⟩
  obtain ⟨hshape, hoffsets⟩ :=
    (gives_frames hstart fun done f hf hdone => hdone.cons hf).onBytes h
  refine ⟨fun f hf => hshape f (List.mem_reverse.2 hf), ?_⟩
  rw [List.map_reverse, List.pairwise_reverse, List.pairwise_map] at hoffsets
  exact hoffsets

/-- The frames read so far, last first: each distance adds at most as much as two bytes can say. -/
def AreNear (done : List Frame) : Prop :=
  ∀ f ∈ done, f.offset < 0x10000 * done.length ∧ ∀ t ∈ f.locals.types ++ f.stack, t.Fits

theorem AreNear.cons {done : List Frame} {f : FrameDelta} (hf : f.IsShaped) (h : AreNear done) :
    AreNear (⟨frameOffset (lastOffset? done) f.delta, f.locals, f.stack⟩ :: done) := by
  have hnear := hf.near
  refine List.forall_mem_cons.2 ⟨⟨?_, hf.fits⟩, fun g hg => ⟨?_, (h g hg).2⟩⟩
  · cases done with
    | nil =>
      show f.delta < 0x10000
      omega
    | cons g rest =>
      have hlast := (h g List.mem_cons_self).1
      show g.offset + f.delta + 1 < 0x10000 * ((g :: rest).length + 1)
      omega
  · have hold := (h g hg).1
    rw [List.length_cons]
    omega

/-- **The offsets that a table mentions** are below the greatest 32-bit number. -/
theorem lt_of_readFrames {body : Bytes} {frames : List Frame} (h : readFrames body = .ok frames)
    {n : Nat} (hn : n ∈ frames.flatMap Frame.offsets) : n < 0xffffffff := by
  have hcount := length_readFrames_le h
  have hnear : AreNear frames.reverse :=
    (gives_frames (P := AreNear) (fun f hf => (List.not_mem_nil hf).elim)
      fun done f hf hdone => hdone.cons hf).onBytes h
  obtain ⟨f, hf, hn⟩ := List.mem_flatMap.1 hn
  obtain ⟨hoffset, hfits⟩ := hnear f (List.mem_reverse.2 hf)
  rw [List.length_reverse] at hoffset
  rcases List.mem_cons.1 hn with rfl | hn
  · omega
  · obtain ⟨t, ht, hsite⟩ := List.mem_filterMap.1 hn
    have hle : n ≤ 0xffff := hfits t ht n hsite
    omega

/-! ## 2. One frame -/

section Write

variable {newOffset : Nat → Option Nat} {place : Nat → Nat}

theorem mem_offsets_of_site {f : Frame} {t : VerificationType} {site : Nat}
    (ht : t ∈ f.locals.types ++ f.stack) (hsite : site ∈ t.site?) : site ∈ f.offsets :=
  List.mem_cons_of_mem _ (List.mem_filterMap.2 ⟨t, ht, hsite⟩)

theorem fits_mapSite {t : VerificationType} (h : ∀ site ∈ t.site?, place site ≤ 0xffff) :
    (t.mapSite place).Fits := by
  intro n hn
  cases t with
  | uninitialized site =>
    cases hn
    exact h site rfl
  | _ => cases hn

/-- Types whose allocations stay can be relocated. -/
theorem relocated_mapSite {types : List VerificationType}
    (placed : ∀ t ∈ types, ∀ site ∈ t.site?, newOffset site = some (place site)) :
    Relocated newOffset types (types.map (.mapSite place)) := by
  rw [relocated_iff, List.forall₂_map_right_iff, List.forall₂_same]
  intro t ht
  cases t with
  | uninitialized site =>
    rw [VerificationType.relocate?, placed _ ht site rfl]
    rfl
  | _ => rfl

/-- **A frame in a shape it can have is written again**, when nothing is carried to it, and read
    back with its types at their places. -/
theorem exists_frameBytes {change : LocalsChange} {stack : List VerificationType} (delta : UInt16)
    (shape : change.FitsStack stack)
    (placed : ∀ t ∈ change.types, ∀ site ∈ t.site?, newOffset site = some (place site))
    (fits : ∀ t ∈ (change.mapTypes (.mapSite place)).types ++ stack, t.Fits) :
    ∃ bytes, frameBytes newOffset delta stack (Carried.nothing.followedBy change) = .ok bytes ∧
      Reads frameDelta bytes ⟨delta.toNat, change.mapTypes (.mapSite place), stack⟩ := by
  rw [LocalsChange.types_mapTypes, List.forall_mem_append] at fits
  have hmoved := relocateTypes_eq_ok.2 (relocated_mapSite placed)
  cases change with
  | same =>
    rcases stack with _ | ⟨item, _ | ⟨second, rest⟩⟩
    · exact ⟨_, rfl, reads_frame_same⟩
    · exact ⟨_, rfl, reads_frame_item (fits.2 item List.mem_cons_self)⟩
    · exact absurd (Nat.le_of_succ_le_succ shape) (Nat.not_succ_le_zero _)
  | chop count =>
    obtain ⟨hpos, hfew, hstack⟩ := shape
    obtain ⟨count, rfl⟩ := Nat.exists_eq_succ_of_ne_zero (Nat.ne_of_gt hpos)
    have hcarried : Carried.nothing.followedBy (.chop (count + 1)) = .relative (count + 1) [] := by
      simp [Carried.nothing, Carried.followedBy]
    rw [hcarried, List.length_eq_zero_iff.1 hstack]
    exact ⟨_, if_pos ⟨rfl, hfew, rfl⟩, reads_frame_chop hfew (Nat.succ_ne_zero count)⟩
  | append types =>
    obtain ⟨hsome, hfew, hstack⟩ := shape
    have hlength : (types.map (VerificationType.mapSite place)).length = types.length :=
      List.length_map _
    rw [List.length_eq_zero_iff.1 hstack]
    obtain ⟨first, rest, rfl⟩ := List.exists_cons_of_length_pos hsome
    refine ⟨_, (if_pos ⟨hfew, rfl⟩).trans (bind_eq_ok.2 ⟨_, hmoved, rfl⟩), ?_⟩
    rw [List.nil_append, ← hlength]
    exact reads_frame_append (hlength ▸ hfew) (List.cons_ne_nil _ _) fits.1
  | full types =>
    refine ⟨_, bind_eq_ok.2 ⟨_, fitUnsigned16_of_le _ shape.1, bind_eq_ok.2 ⟨_, hmoved,
      bind_eq_ok.2 ⟨_, fitUnsigned16_of_le _ shape.2, rfl⟩⟩⟩, ?_⟩
    refine reads_frame_full ?_ (toNat_ofNat16 shape.2) fits.1 fits.2
    rw [toNat_ofNat16 shape.1]
    exact (List.length_map _).symm

end Write

/-! ## 3. Tables -/

/-- Whether an offset can be said as a distance from the one before. -/
def IsInReach (previous : Option Nat) (target : Nat) : Prop :=
  ∃ delta ≤ 0xffff, frameOffset previous delta = target

theorem isInReach_of_le {previous : Option Nat} {target : Nat} (small : target ≤ 0xffff)
    (hlast : ∀ p ∈ previous, p < target) : IsInReach previous target := by
  cases previous with
  | none => exact ⟨target, small, rfl⟩
  | some p =>
    have hlt := hlast p rfl
    refine ⟨target - p - 1, by omega, ?_⟩
    show p + (target - p - 1) + 1 = target
    omega

namespace FrameTable

variable {newOffset : Nat → Option Nat} {place : Nat → Nat} {seen : List Frame} {t : FrameTable}
  {f : Frame}

/-- A distance that reaches is the one written. -/
theorem delta_of_frameOffset {old target delta : Nat} (h : frameOffset t.previous delta = target) :
    t.delta old target = .ok delta := by
  unfold FrameTable.delta
  cases hp : t.previous with
  | none =>
    rw [hp] at h
    exact congrArg _ h.symm
  | some p =>
    rw [hp] at h
    have h : p + delta + 1 = target := h
    simp only
    rw [if_pos (by omega)]
    congr 1
    omega

/-- A frame in reach of the one before is written, when nothing is carried to it, and read back with
    its offsets at their places. -/
theorem exists_add (shape : f.locals.FitsStack f.stack)
    (placed : ∀ n ∈ f.offsets, newOffset n = some (place n))
    (fits : ∀ t ∈ f.locals.types ++ f.stack, (t.mapSite place).Fits)
    (carried : t.carried = .nothing) (reach : IsInReach t.previous (place f.offset)) :
    ∃ bytes, t.add newOffset f =
        .ok { written := bytes :: t.written, previous := some (place f.offset), carried := .nothing } ∧
      bytes.length ≤ maxFrameLength ∧
      ∀ done, t.previous = lastOffset? done →
        Reads (frameStep done) bytes (f.mapOffsets place :: done) := by
  obtain ⟨distance, hle, hdistance⟩ := reach
  have hsites : ∀ t ∈ f.locals.types ++ f.stack, ∀ site ∈ t.site?,
      newOffset site = some (place site) := fun t ht site hsite =>
    placed site (mem_offsets_of_site ht hsite)
  rw [List.forall_mem_append] at hsites
  have hstack := relocateTypes_eq_ok.2 (relocated_mapSite hsites.2)
  have hshape : f.locals.FitsStack (f.stack.map (.mapSite place)) :=
    shape.of_length (List.length_map _).symm
  obtain ⟨bytes, hbytes, hread⟩ := exists_frameBytes (UInt16.ofNat distance) hshape hsites.1 (by
    rwa [LocalsChange.types_mapTypes, ← List.map_append, List.forall_mem_map])
  refine ⟨bytes, ?_, length_frameBytes_le hbytes, fun done hprevious => ?_⟩
  · unfold FrameTable.add
    simp only [placed f.offset List.mem_cons_self, carried]
    exact bind_eq_ok.2 ⟨distance, delta_of_frameOffset hdistance, bind_eq_ok.2
      ⟨_, fitUnsigned16_of_le _ hle, bind_eq_ok.2 ⟨_, hstack, bind_eq_ok.2 ⟨bytes, hbytes, rfl⟩⟩⟩⟩
  · have hstep := reads_frameStep done hread
    rwa [← hprevious, toNat_ofNat16 hle, hdistance] at hstep

/-- Whether a frame's allocations all stay. -/
def Stays (newOffset : Nat → Option Nat) (f : Frame) : Prop :=
  ∀ t ∈ f.locals.types ++ f.stack, ∀ site ∈ t.site?, (newOffset site).isSome

/-- All offsets of a frame have places when it stays itself. -/
theorem Stays.exists_place {target : Nat} (h : Stays newOffset f)
    (lands : newOffset f.offset = some target) :
    ∃ place : Nat → Nat, place f.offset = target ∧ ∀ n ∈ f.offsets, newOffset n = some (place n) := by
  refine ⟨fun n => (newOffset n).getD 0, by simp only [lands, Option.getD_some],
    fun n hn => ?_⟩
  have hsome : (newOffset n).isSome := by
    rcases List.mem_cons.1 hn with rfl | hn
    · exact Option.isSome_of_eq_some lands
    · obtain ⟨t, ht, hsite⟩ := List.mem_filterMap.1 hn
      exact h t ht n hsite
  obtain ⟨k, hk⟩ := Option.isSome_iff_exists.1 hsome
  simp only [hk, Option.getD_some]

/-- Whether frames keep their order: where one stays, those before it stay, at no greater offset. -/
def InOrder (newOffset : Nat → Option Nat) (frames : List Frame) : Prop :=
  frames.Pairwise fun f g => ∀ k, newOffset g.offset = some k →
    ∃ j ≤ k, newOffset f.offset = some j

/-- Whether no two frames land at one offset. -/
def Apart (newOffset : Nat → Option Nat) (frames : List Frame) : Prop :=
  frames.Pairwise fun f g => ∀ k, newOffset f.offset = some k → newOffset g.offset ≠ some k

/-- What holds of the table after some frames: one of them is left out, so all others will be, or
    nothing is carried and the last one written is one of them. -/
def Follows (newOffset : Nat → Option Nat) (seen : List Frame) (t : FrameTable) : Prop :=
  (∃ f ∈ seen, newOffset f.offset = none) ∨
    t.carried = .nothing ∧ ∀ p ∈ t.previous, ∃ f ∈ seen, newOffset f.offset = some p

/-- A frame can be added that keeps the order and is apart from those before. -/
theorem Follows.add (h : Follows newOffset seen t)
    (small : ∀ n k, newOffset n = some k → k ≤ 0xffff) (shape : f.locals.FitsStack f.stack)
    (stays : Stays newOffset f) (order : InOrder newOffset (seen ++ [f]))
    (apart : Apart newOffset (seen ++ [f])) :
    ∃ t', t.add newOffset f = .ok t' ∧ Follows newOffset (seen ++ [f]) t' := by
  have order := fun g hg => (List.pairwise_append.1 order).2.2 g hg f (List.mem_singleton.2 rfl)
  have apart := fun g hg => (List.pairwise_append.1 apart).2.2 g hg f (List.mem_singleton.2 rfl)
  have hmem : f ∈ seen ++ [f] := List.mem_append_right _ (List.mem_singleton.2 rfl)
  cases hplace : newOffset f.offset with
  | none =>
    refine ⟨{ t with carried := t.carried.followedBy f.locals }, ?_, .inl ⟨f, hmem, hplace⟩⟩
    unfold FrameTable.add
    simp only [hplace]
    rfl
  | some target =>
    rcases h with ⟨g, hg, hgone⟩ | ⟨hcarried, hprevious⟩
    · obtain ⟨j, -, hstays⟩ := order g hg target hplace
      rw [hgone] at hstays
      cases hstays
    · have hlast : ∀ p ∈ t.previous, p < target := by
        intro p hp
        obtain ⟨g, hg, hat⟩ := hprevious p hp
        obtain ⟨j, hle, hj⟩ := order g hg target hplace
        cases hat.symm.trans hj
        refine Nat.lt_of_le_of_ne hle fun heq => apart g hg p hat ?_
        rw [hplace, heq]
      obtain ⟨place, rfl, hplaced⟩ := stays.exists_place hplace
      have hfits : ∀ t ∈ f.locals.types ++ f.stack, (t.mapSite place).Fits := fun t ht =>
        fits_mapSite fun site hsite => small site _ (hplaced site (mem_offsets_of_site ht hsite))
      obtain ⟨bytes, hadd, -, -⟩ := exists_add shape hplaced hfits hcarried
        (isInReach_of_le (small _ _ hplace) hlast)
      refine ⟨_, hadd, .inr ⟨rfl, fun p hp => ⟨f, hmem, ?_⟩⟩⟩
      cases hp
      exact hplace

/-- Frames can be added one after another that keep the order and are apart. -/
theorem Follows.addAll {frames : List Frame} (h : Follows newOffset seen t)
    (small : ∀ n k, newOffset n = some k → k ≤ 0xffff)
    (shapes : ∀ f ∈ frames, f.locals.FitsStack f.stack) (stay : ∀ f ∈ frames, Stays newOffset f)
    (order : InOrder newOffset (seen ++ frames)) (apart : Apart newOffset (seen ++ frames)) :
    ∃ t', frames.foldlM (FrameTable.add newOffset) t = .ok t' := by
  induction frames generalizing seen t with
  | nil => exact ⟨t, rfl⟩
  | cons f rest ih =>
    rw [List.append_cons] at order apart
    obtain ⟨next, hnext, hfollows⟩ := h.add small (shapes f List.mem_cons_self)
      (stay f List.mem_cons_self) (order.sublist (List.sublist_append_left _ rest))
      (apart.sublist (List.sublist_append_left _ rest))
    obtain ⟨t', ht'⟩ := ih hfollows (fun g hg => shapes g (List.mem_cons_of_mem f hg))
      (fun g hg => stay g (List.mem_cons_of_mem f hg)) order apart
    exact ⟨t', bind_eq_ok.2 ⟨next, hnext, ht'⟩⟩

end FrameTable

/-- **A table is relocated** where its frames keep their order and their allocations stay, unless two
    frames land at one offset. -/
theorem exists_relocateFrames {newOffset : Nat → Option Nat} {body : Bytes} {frames : List Frame}
    (hframes : readFrames body = .ok frames) (small : ∀ n k, newOffset n = some k → k ≤ 0xffff)
    (stay : ∀ f ∈ frames, FrameTable.Stays newOffset f)
    (order : FrameTable.InOrder newOffset frames) (apart : FrameTable.Apart newOffset frames) :
    ∃ out, relocateFrames newOffset body = .ok out := by
  have hstart : FrameTable.Follows newOffset [] {} := .inr ⟨rfl, fun p hp => by cases hp⟩
  obtain ⟨t, ht⟩ := hstart.addAll small (shaped_of_readFrames hframes).1 stay order apart
  exact ⟨_, bind_eq_ok.2 ⟨frames, hframes, bind_eq_ok.2 ⟨t, ht, rfl⟩⟩⟩

end Rewire
