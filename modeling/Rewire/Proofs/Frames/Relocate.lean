import Mathlib
import Rewire.Proofs.Bytes.Fit
import Rewire.Proofs.Frames.Bytes

/-!
# A relocated table means what the table meant

Frames whose position is gone are left out when a stack map table is written for a new layout, and
their changes of the locals go into the next frame that stays. This file shows that the table
written says, at each position that is still there, what the old table said there, with every
allocation at its new place:

* `apply_followedBy` -- changes carried over one after another are the changes applied one after
  another;
* `frameBytes_reads` -- a frame is read back with a change that does to relocated locals what the
  carried change does to the locals before;
* `FrameTable.IsReadAs` -- the frames that the table written so far is read back as;
* `FrameTable.Tracks` -- the invariant of a table under construction: the frames written so far
  are read back as frames that mean what the frames seen so far mean at the positions kept;
* `readFrames_relocateFrames` -- the finished table.
-/

namespace Rewire

open Reader

/-! ## 1. Relocated types -/

/-- Going through a list succeeds when each element does. -/
theorem mapM_eq_some {α β : Type} {f : α → Option β} {l : List α} {bs : List β} :
    l.mapM f = some bs ↔ List.Forall₂ (fun a b => f a = some b) l bs := by
  induction l generalizing bs with
  | nil => simp [eq_comm]
  | cons a rest ih =>
    simp only [List.mapM_cons, List.forall₂_cons_left_iff, ← ih, Option.bind_eq_bind,
      Option.bind_eq_some_iff, Option.pure_def, Option.some.injEq]
    constructor
    · rintro ⟨b, hb, more, hmore, rfl⟩
      exact ⟨b, more, hb, hmore, rfl⟩
    · rintro ⟨b, more, hb, hmore, rfl⟩
      exact ⟨b, hb, more, hmore, rfl⟩

section Types

variable {newOffset : Nat → Option Nat}

/-- Whether types are others with their allocations at new places. -/
def Relocated (newOffset : Nat → Option Nat) (types moved : List VerificationType) : Prop :=
  types.mapM (VerificationType.relocate? newOffset) = some moved

theorem relocated_iff {types moved : List VerificationType} :
    Relocated newOffset types moved ↔
      List.Forall₂ (fun t t' => t.relocate? newOffset = some t') types moved :=
  mapM_eq_some

theorem relocate_eq_ok {t t' : VerificationType} :
    t.relocate newOffset = .ok t' ↔ t.relocate? newOffset = some t' := by
  cases t with
  | uninitialized site =>
    simp only [VerificationType.relocate, VerificationType.relocate?]
    cases newOffset site with
    | none => simp
    | some s => simp
  | _ => simp [VerificationType.relocate, VerificationType.relocate?]

theorem relocateTypes_eq_ok {types moved : List VerificationType} :
    relocateTypes newOffset types = .ok moved ↔ Relocated newOffset types moved := by
  rw [relocateTypes, mapM_eq_ok, relocated_iff]
  simp only [relocate_eq_ok]

theorem Relocated.append {types moved more movedMore : List VerificationType}
    (h : Relocated newOffset types moved) (hmore : Relocated newOffset more movedMore) :
    Relocated newOffset (types ++ more) (moved ++ movedMore) := by
  rw [relocated_iff] at h hmore ⊢
  exact List.rel_append h hmore

theorem Relocated.take {types moved : List VerificationType} (n : Nat)
    (h : Relocated newOffset types moved) :
    Relocated newOffset (types.take n) (moved.take n) := by
  rw [relocated_iff] at h ⊢
  exact List.forall₂_take n h

theorem Relocated.length_eq {types moved : List VerificationType}
    (h : Relocated newOffset types moved) : types.length = moved.length :=
  (relocated_iff.1 h).length_eq

/-- Types without allocations stay as they are. -/
theorem relocated_self {types : List VerificationType} (h : ∀ t ∈ types, t.site? = none) :
    Relocated newOffset types types := by
  rw [relocated_iff, List.forall₂_same]
  intro t ht
  have hnone := h t ht
  cases t with
  | uninitialized site => cases hnone
  | _ => rfl

/-- Whether a number is a new offset. -/
def IsNewOffset (newOffset : Nat → Option Nat) (n : Nat) : Prop :=
  ∃ old, newOffset old = some n

/-- The allocations of relocated types are at new offsets. -/
theorem Relocated.sites {types moved : List VerificationType} (h : Relocated newOffset types moved) :
    ∀ t ∈ moved, ∀ site ∈ t.site?, IsNewOffset newOffset site := by
  intro t' ht' site hsite
  obtain ⟨t, -, ht⟩ := exists_left_of_forall₂ (relocated_iff.1 h) ht'
  cases t with
  | uninitialized old =>
    obtain ⟨new, hnew, rfl⟩ := Option.map_eq_some_iff.1 ht
    cases hsite
    exact ⟨old, hnew⟩
  | _ =>
    cases ht
    cases hsite

/-- Relocated types fit their bytes when the new offsets do. -/
theorem Relocated.fits {types moved : List VerificationType}
    (small : ∀ n k, newOffset n = some k → k ≤ 0xffff) (h : Relocated newOffset types moved) :
    ∀ t ∈ moved, t.Fits := by
  intro t ht site hsite
  obtain ⟨old, hold⟩ := h.sites t ht site hsite
  exact small old site hold

end Types

/-! ## 2. Meanings of lists of frames -/

/-- The locals after a list of frames. -/
def localsAfter (locals : List VerificationType) (frames : List Frame) : List VerificationType :=
  frames.foldl (fun locals f => f.locals.apply locals) locals

theorem localsAfter_concat (locals : List VerificationType) (frames : List Frame) (f : Frame) :
    localsAfter locals (frames ++ [f]) = f.locals.apply (localsAfter locals frames) := by
  rw [localsAfter, List.foldl_append]
  rfl

theorem interpret_concat (locals : List VerificationType) (frames : List Frame) (f : Frame) :
    interpret locals (frames ++ [f]) =
      interpret locals frames ++ [⟨f.offset, f.locals.apply (localsAfter locals frames), f.stack⟩] := by
  induction frames generalizing locals with
  | nil => rfl
  | cons g rest ih =>
    rw [List.cons_append, interpret, ih]
    rfl

theorem survivors_concat (newOffset : Nat → Option Nat) (states : List FrameState)
    (s : FrameState) :
    survivors newOffset (states ++ [s]) =
      survivors newOffset states ++ if (newOffset s.offset).isSome then [s] else [] := by
  rw [survivors, List.filter_append]
  cases h : (newOffset s.offset).isSome with
  | false => simp [survivors, h]
  | true => simp [survivors, h]

/-! ## 3. Carried changes -/

/-- **Changes carried over one after another are the changes applied one after another.** -/
theorem apply_followedBy (c : Carried) (change : LocalsChange) (locals : List VerificationType) :
    (c.followedBy change).apply locals = change.apply (c.apply locals) := by
  cases change with
  | same => cases c <;> rfl
  | full types => cases c <;> rfl
  | append types =>
    cases c with
    | relative chopped appended => simp [Carried.followedBy, Carried.apply, LocalsChange.apply]
    | absolute types' => rfl
  | chop count =>
    cases c with
    | absolute types' => rfl
    | relative chopped appended =>
      simp only [Carried.followedBy, Carried.apply, LocalsChange.apply, List.length_append,
        List.length_take, List.take_append, List.take_take]
      congr 2 <;> omega

/-- Whether one change does to relocated locals what a carried change does to the locals before. -/
def LocalsChange.Mirrors (newOffset : Nat → Option Nat) (c : Carried) (change : LocalsChange) :
    Prop :=
  ∀ locals moved, Relocated newOffset locals moved →
    Relocated newOffset (c.apply locals) (change.apply moved)

section Mirrors

variable {newOffset : Nat → Option Nat}

theorem mirrors_nothing : LocalsChange.Mirrors newOffset .nothing .same := by
  intro locals moved h
  rwa [Carried.apply_nothing]

theorem mirrors_append {types moved : List VerificationType} (h : Relocated newOffset types moved) :
    LocalsChange.Mirrors newOffset (.relative 0 types) (.append moved) := by
  intro locals moved' hlocals
  rw [Carried.apply, Nat.sub_zero, List.take_length]
  exact hlocals.append h

theorem mirrors_chop (count : Nat) :
    LocalsChange.Mirrors newOffset (.relative count []) (.chop count) := by
  intro locals moved h
  rw [Carried.apply, List.append_nil, h.length_eq]
  exact h.take _

theorem mirrors_full {types moved : List VerificationType} (h : Relocated newOffset types moved) :
    LocalsChange.Mirrors newOffset (.absolute types) (.full moved) :=
  fun _ _ _ => h

end Mirrors

/-! ## 4. One frame -/

/-- **A frame is read back** with its distance and its stack, and with a change that mirrors the
    carried one and mentions new offsets only. -/
theorem frameBytes_reads {newOffset : Nat → Option Nat} {delta : UInt16}
    {stack : List VerificationType} {c : Carried} {bytes : Bytes}
    (small : ∀ n k, newOffset n = some k → k ≤ 0xffff) (stackFits : ∀ t ∈ stack, t.Fits)
    (h : frameBytes newOffset delta stack c = .ok bytes) :
    ∃ change, Reads frameDelta bytes ⟨delta.toNat, change, stack⟩ ∧
      change.Mirrors newOffset c ∧
      ∀ t ∈ change.types, ∀ site ∈ t.site?, IsNewOffset newOffset site := by
  unfold frameBytes at h
  split at h
  · split at h
    · cases h
      exact ⟨.same, reads_frame_same, mirrors_nothing, fun _ h => absurd h List.not_mem_nil⟩
    · cases h
      exact ⟨.same, reads_frame_item (stackFits _ List.mem_cons_self), mirrors_nothing,
        fun _ h => absurd h List.not_mem_nil⟩
    · cases h
  · rename_i appended hsome
    split at h
    · rename_i hcond
      obtain ⟨moved, hmoved, hbytes⟩ := bind_eq_ok.1 h
      have hrel := relocateTypes_eq_ok.1 hmoved
      cases hbytes
      rw [hrel.length_eq, hcond.2]
      refine ⟨.append moved, reads_frame_append ?_ ?_ (hrel.fits small), mirrors_append hrel,
        hrel.sites⟩
      · rw [← hrel.length_eq]
        exact hcond.1
      · intro hnil
        have hlen := hrel.length_eq
        rw [hnil] at hlen
        exact hsome (List.length_eq_zero_iff.1 hlen)
    · cases h
  · rename_i chopped appended _ hnonzero
    split at h
    · rename_i hcond
      cases h
      rw [hcond.1, hcond.2.2]
      exact ⟨.chop chopped, reads_frame_chop hcond.2.1 hnonzero, mirrors_chop chopped,
        fun _ h => absurd h List.not_mem_nil⟩
    · cases h
  · rename_i types
    obtain ⟨localCount, hlocalCount, h⟩ := bind_eq_ok.1 h
    obtain ⟨moved, hmoved, h⟩ := bind_eq_ok.1 h
    obtain ⟨stackCount, hstackCount, h⟩ := bind_eq_ok.1 h
    have hrel := relocateTypes_eq_ok.1 hmoved
    cases h
    refine ⟨.full moved, reads_frame_full ?_ ?_ (hrel.fits small) stackFits, mirrors_full hrel,
      hrel.sites⟩
    · rw [(fitUnsigned16_eq_ok hlocalCount).1, hrel.length_eq]
    · exact (fitUnsigned16_eq_ok hstackCount).1

theorem length_types_le (types : List VerificationType) :
    (types.flatMap VerificationType.bytes).length ≤ 3 * types.length := by
  induction types with
  | nil => simp
  | cons t rest ih =>
    have ht : t.bytes.length ≤ 3 := by cases t <;> simp [VerificationType.bytes]
    rw [List.flatMap_cons, List.length_append, List.length_cons]
    omega

/-- No frame has more bytes than this. -/
def maxFrameLength : Nat := 0x80000

theorem length_frameBytes_le {newOffset : Nat → Option Nat} {delta : UInt16}
    {stack : List VerificationType} {c : Carried} {bytes : Bytes}
    (h : frameBytes newOffset delta stack c = .ok bytes) : bytes.length ≤ maxFrameLength := by
  unfold frameBytes at h
  split at h
  · split at h
    · cases h
      split <;> simp [maxFrameLength]
    · rename_i item
      have hitem := length_types_le [item]
      simp only [List.flatMap_cons, List.flatMap_nil, List.append_nil, List.length_singleton] at hitem
      cases h
      split <;> simp [maxFrameLength] <;> omega
    · cases h
  · split at h
    · rename_i hcond
      obtain ⟨moved, hmoved, hbytes⟩ := bind_eq_ok.1 h
      have hlen := length_types_le moved
      have hfew : moved.length ≤ 3 := (relocateTypes_eq_ok.1 hmoved).length_eq ▸ hcond.1
      cases hbytes
      simp only [List.cons_append, List.length_cons, List.length_append, length_be16, maxFrameLength]
      omega
    · cases h
  · split at h
    · cases h
      simp [maxFrameLength]
    · cases h
  · obtain ⟨localCount, hlocalCount, h⟩ := bind_eq_ok.1 h
    obtain ⟨moved, hmoved, h⟩ := bind_eq_ok.1 h
    obtain ⟨stackCount, hstackCount, h⟩ := bind_eq_ok.1 h
    have hmovedLen := length_types_le moved
    have hstackLen := length_types_le stack
    have hlocals := (fitUnsigned16_eq_ok hlocalCount).2
    have hstack := (fitUnsigned16_eq_ok hstackCount).2
    have heq := (relocateTypes_eq_ok.1 hmoved).length_eq
    cases h
    simp only [List.cons_append, List.length_cons, List.length_append, length_be16, maxFrameLength]
    omega

/-! ## 5. Tables -/

namespace FrameTable

/-- Whether the table written so far is read back as `done`, last frame first. -/
structure IsReadAs (t : FrameTable) (done : List Frame) : Prop where
  reads : Reads (repeated t.written.length frameStep []) t.written.reverse.flatten done
  short : ∀ bytes ∈ t.written, bytes.length ≤ maxFrameLength
  previous : t.previous = lastOffset? done

theorem isReadAs_start : IsReadAs {} [] where
  reads := reads_pure []
  short _ h := absurd h List.not_mem_nil
  previous := rfl

section IsReadAs

variable {t : FrameTable} {done : List Frame} {f : Frame}

/-- A frame that is written is read back behind the others. -/
theorem IsReadAs.write {bytes : Bytes} (h : t.IsReadAs done)
    (hread : Reads (frameStep done) bytes (f :: done)) (hshort : bytes.length ≤ maxFrameLength)
    (carried : Carried) :
    IsReadAs { written := bytes :: t.written, previous := some f.offset, carried } (f :: done) where
  reads := by
    rw [List.reverse_cons, List.flatten_append, List.length_cons]
    refine reads_repeated_succ h.reads ?_
    simpa using hread
  short := List.forall_mem_cons.2 ⟨hshort, h.short⟩
  previous := rfl

theorem IsReadAs.length_le (h : t.IsReadAs done) :
    t.written.reverse.flatten.length ≤ t.written.length * maxFrameLength := by
  have hsum := List.sum_le_card_nsmul (t.written.map List.length) maxFrameLength fun n hn => by
    obtain ⟨bytes, hbytes, rfl⟩ := List.mem_map.1 hn
    exact h.short bytes hbytes
  rw [List.length_flatten, List.map_reverse, List.sum_reverse]
  rwa [List.length_map, smul_eq_mul] at hsum

/-- The body of a table is read back as the frames written. -/
theorem IsReadAs.readFrames_bytes (h : t.IsReadAs done) (few : t.written.length ≤ 0xffff) :
    readFrames t.bytes = .ok done.reverse := by
  have hlen := h.length_le.trans (Nat.mul_le_mul_right maxFrameLength few)
  refine (reads_frames few h.reads).onBytes_self ?_
  rw [List.length_append, length_be16]
  simp only [maxFrameLength, positionLimit] at hlen ⊢
  omega

end IsReadAs

/-- **The table written so far means what the frames seen so far mean at the positions kept.** It
    is read back as `done`, last frame first. -/
structure Tracks (newOffset : Nat → Option Nat) (seen : List Frame) (t : FrameTable)
    (done : List Frame) : Prop where
  reads : Reads (repeated t.written.length frameStep []) t.written.reverse.flatten done
  few : t.written.length ≤ seen.length
  short : ∀ bytes ∈ t.written, bytes.length ≤ maxFrameLength
  previous : t.previous = lastOffset? done
  decreasing : (done.map Frame.offset).Pairwise (· > ·)
  states : ∀ locals : List VerificationType, (∀ t ∈ locals, t.site? = none) →
    (survivors newOffset (interpret locals seen)).mapM (FrameState.relocate? newOffset) =
      some (interpret locals done.reverse)
  known : ∀ f ∈ done, ∀ n ∈ f.offsets, IsNewOffset newOffset n
  /-- What is carried leads from locals that were relocated to those of the frames seen. -/
  carries : ∀ locals : List VerificationType, (∀ t ∈ locals, t.site? = none) →
    ∃ kept, Relocated newOffset kept (localsAfter locals done.reverse) ∧
      t.carried.apply kept = localsAfter locals seen

variable {newOffset : Nat → Option Nat} {seen : List Frame} {t t' : FrameTable}
  {done : List Frame} {f : Frame}

theorem Tracks.isReadAs (h : Tracks newOffset seen t done) : t.IsReadAs done :=
  ⟨h.reads, h.short, h.previous⟩

theorem tracks_start : Tracks newOffset [] {} [] where
  reads := reads_pure []
  few := Nat.le_refl 0
  short _ h := absurd h List.not_mem_nil
  previous := rfl
  decreasing := List.Pairwise.nil
  states _ _ := rfl
  known _ h := absurd h List.not_mem_nil
  carries locals h := ⟨locals, relocated_self h, Carried.apply_nothing locals⟩

/-- A frame whose position is gone is left out, and its change carried on. -/
theorem Tracks.skip (h : Tracks newOffset seen t done) (gone : newOffset f.offset = none) :
    Tracks newOffset (seen ++ [f]) { t with carried := t.carried.followedBy f.locals } done where
  reads := h.reads
  few := by
    show t.written.length ≤ _
    rw [List.length_append]
    exact Nat.le_add_right_of_le h.few
  short := h.short
  previous := h.previous
  decreasing := h.decreasing
  states locals hlocals := by
    rw [interpret_concat, survivors_concat, gone]
    simpa using h.states locals hlocals
  known := h.known
  carries locals hlocals := by
    obtain ⟨kept, hrel, hkept⟩ := h.carries locals hlocals
    refine ⟨kept, hrel, ?_⟩
    rw [apply_followedBy, hkept, localsAfter_concat]

theorem delta_eq_ok {old target delta : Nat} (h : t.delta old target = .ok delta) :
    frameOffset t.previous delta = target ∧ ∀ p ∈ t.previous, p < target := by
  unfold FrameTable.delta at h
  cases hp : t.previous with
  | none =>
    rw [hp] at h
    cases h
    exact ⟨rfl, fun p hp' => by cases hp'⟩
  | some p =>
    simp only [hp] at h
    split at h
    · rename_i hlt
      cases h
      refine ⟨?_, fun q hq => ?_⟩
      · show p + (target - p - 1) + 1 = target
        omega
      · cases hq
        exact hlt
    · cases h

/-- All frames written so far lie before a place after the last one. -/
theorem Tracks.lt_of_mem {target : Nat} (h : Tracks newOffset seen t done)
    (hlast : ∀ p ∈ t.previous, p < target) : ∀ o ∈ done.map Frame.offset, o < target := by
  intro o ho
  have hprevious := h.previous
  have hdecreasing := h.decreasing
  cases done with
  | nil => cases ho
  | cons g rest =>
    rw [List.map_cons] at ho hdecreasing
    have hg : g.offset < target := hlast _ (by rw [hprevious]; rfl)
    rcases List.mem_cons.1 ho with rfl | ho
    · exact hg
    · exact Nat.lt_trans ((List.pairwise_cons.1 hdecreasing).1 o ho) hg

/-- A frame that lands somewhere is written there, with what was carried. -/
theorem Tracks.write {target : Nat} {delta : UInt16} {stack : List VerificationType}
    {bytes : Bytes} (small : ∀ n k, newOffset n = some k → k ≤ 0xffff)
    (h : Tracks newOffset seen t done) (lands : newOffset f.offset = some target)
    (hdelta : frameOffset t.previous delta.toNat = target) (hlast : ∀ p ∈ t.previous, p < target)
    (hstack : Relocated newOffset f.stack stack)
    (hbytes : frameBytes newOffset delta stack (t.carried.followedBy f.locals) = .ok bytes) :
    ∃ done', Tracks newOffset (seen ++ [f])
      { written := bytes :: t.written, previous := some target, carried := .nothing } done' := by
  obtain ⟨change, hread, hmirrors, hsites⟩ := frameBytes_reads small (hstack.fits small) hbytes
  have hstep := reads_frameStep done hread
  rw [← h.previous, hdelta] at hstep
  have hwritten := h.isReadAs.write hstep (length_frameBytes_le hbytes) .nothing
  refine ⟨⟨target, change, stack⟩ :: done, hwritten.reads, ?_, hwritten.short, hwritten.previous,
    ?_, fun locals hlocals => ?_, ?_, fun locals hlocals => ?_⟩
  · rw [List.length_append, List.length_cons, List.length_singleton]
    exact Nat.succ_le_succ h.few
  · rw [List.map_cons, List.pairwise_cons]
    exact ⟨h.lt_of_mem hlast, h.decreasing⟩
  · obtain ⟨kept, hkept, happly⟩ := h.carries locals hlocals
    have hmoved := hmirrors kept _ hkept
    rw [apply_followedBy, happly] at hmoved
    rw [interpret_concat, survivors_concat, lands, Option.isSome_some, if_pos rfl,
      List.mapM_append, h.states locals hlocals, List.reverse_cons, interpret_concat]
    have hstate : FrameState.relocate? newOffset
        ⟨f.offset, f.locals.apply (localsAfter locals seen), f.stack⟩ =
          some ⟨target, change.apply (localsAfter locals done.reverse), stack⟩ := by
      unfold Relocated at hmoved hstack
      simp only [FrameState.relocate?, lands, hmoved, hstack]
      rfl
    simp only [List.mapM_cons, List.mapM_nil, hstate]
    rfl
  · intro g hg n hn
    rcases List.mem_cons.1 hg with rfl | hg
    · rcases List.mem_cons.1 hn with rfl | hn
      · exact ⟨f.offset, lands⟩
      · obtain ⟨t, ht, hsite⟩ := List.mem_filterMap.1 hn
        rcases List.mem_append.1 ht with ht | ht
        · exact hsites t ht n hsite
        · exact hstack.sites t ht n hsite
    · exact h.known g hg n hn
  · obtain ⟨kept, hkept, happly⟩ := h.carries locals hlocals
    have hmoved := hmirrors kept _ hkept
    rw [apply_followedBy, happly] at hmoved
    refine ⟨localsAfter locals (seen ++ [f]), ?_, Carried.apply_nothing _⟩
    rw [localsAfter_concat, List.reverse_cons, localsAfter_concat]
    exact hmoved

/-- What adding one frame preserves. -/
theorem Tracks.add (small : ∀ n k, newOffset n = some k → k ≤ 0xffff)
    (h : Tracks newOffset seen t done) (hadd : t.add newOffset f = .ok t') :
    ∃ done', Tracks newOffset (seen ++ [f]) t' done' := by
  unfold FrameTable.add at hadd
  cases hplace : newOffset f.offset with
  | none =>
    simp only [hplace] at hadd
    cases hadd
    exact ⟨done, h.skip hplace⟩
  | some target =>
    simp only [hplace] at hadd
    obtain ⟨distance, hdistance, hadd⟩ := bind_eq_ok.1 hadd
    obtain ⟨delta, hfit, hadd⟩ := bind_eq_ok.1 hadd
    obtain ⟨stack, hstack, hadd⟩ := bind_eq_ok.1 hadd
    obtain ⟨bytes, hbytes, hadd⟩ := bind_eq_ok.1 hadd
    cases hadd
    obtain ⟨hoffset, hlast⟩ := delta_eq_ok hdistance
    rw [← (fitUnsigned16_eq_ok hfit).1] at hoffset
    exact h.write small hplace hoffset hlast (relocateTypes_eq_ok.1 hstack) hbytes

/-- What adding frames one after another preserves. -/
theorem Tracks.addAll {frames : List Frame} (small : ∀ n k, newOffset n = some k → k ≤ 0xffff)
    (h : Tracks newOffset seen t done) (hadd : frames.foldlM (FrameTable.add newOffset) t = .ok t') :
    ∃ done', Tracks newOffset (seen ++ frames) t' done' := by
  induction frames generalizing seen t done with
  | nil =>
    cases hadd
    exact ⟨done, by rwa [List.append_nil]⟩
  | cons f rest ih =>
    rw [List.foldlM_cons] at hadd
    obtain ⟨next, hnext, hadd⟩ := bind_eq_ok.1 hadd
    obtain ⟨done', h'⟩ := h.add small hnext
    rw [← List.singleton_append, ← List.append_assoc]
    exact ih h' hadd

/-- The body of a table is read back as the frames written. -/
theorem Tracks.readFrames_bytes (h : Tracks newOffset seen t done) (few : seen.length ≤ 0xffff) :
    readFrames t.bytes = .ok done.reverse :=
  h.isReadAs.readFrames_bytes (h.few.trans few)

end FrameTable

/-! ## 6. Relocated tables -/

/-- A relocated table is read back, with new offsets only. -/
theorem offsets_of_relocateFrames {newOffset : Nat → Option Nat} {body out : Bytes}
    (small : ∀ n k, newOffset n = some k → k ≤ 0xffff)
    (h : relocateFrames newOffset body = .ok out) :
    ∃ moved, readFrames out = .ok moved ∧
      ∀ n ∈ moved.flatMap Frame.offsets, IsNewOffset newOffset n := by
  obtain ⟨frames, hframes, h⟩ := bind_eq_ok.1 h
  obtain ⟨t, ht, h⟩ := bind_eq_ok.1 h
  cases h
  obtain ⟨done, htracks⟩ := FrameTable.tracks_start.addAll small ht
  refine ⟨done.reverse, htracks.readFrames_bytes (length_readFrames_le hframes), fun n hn => ?_⟩
  obtain ⟨f, hf, hn⟩ := List.mem_flatMap.1 hn
  exact htracks.known f (List.mem_reverse.1 hf) n hn

/-- **A frame whose position is kept** is in the relocated table, at its new offset. -/
theorem offset_mem_of_relocateFrames {newOffset : Nat → Option Nat} {body out : Bytes}
    {frames : List Frame} {n k : Nat} (small : ∀ n k, newOffset n = some k → k ≤ 0xffff)
    (h : relocateFrames newOffset body = .ok out) (hframes : readFrames body = .ok frames)
    (hn : n ∈ frames.map Frame.offset) (hk : newOffset n = some k) :
    ∃ moved, readFrames out = .ok moved ∧ k ∈ moved.map Frame.offset := by
  obtain ⟨frames', hframes', h⟩ := bind_eq_ok.1 h
  cases hframes.symm.trans hframes'
  obtain ⟨t, ht, h⟩ := bind_eq_ok.1 h
  cases h
  obtain ⟨done, htracks⟩ := FrameTable.tracks_start.addAll small ht
  rw [List.nil_append] at htracks
  refine ⟨done.reverse, htracks.readFrames_bytes (length_readFrames_le hframes), ?_⟩
  have hstates := mapM_eq_some.1 (htracks.states [] (List.forall_mem_nil _))
  rw [← map_offset_interpret [], List.mem_map] at hn ⊢
  obtain ⟨s, hs, rfl⟩ := hn
  have hkept : s ∈ survivors newOffset (interpret [] frames) :=
    List.mem_filter.2 ⟨hs, by rw [hk]; rfl⟩
  obtain ⟨s', hs', hmoved⟩ := exists_left_of_forall₂ hstates.flip hkept
  refine ⟨s', hs', ?_⟩
  obtain ⟨offset, hoffset, hmoved⟩ := Option.bind_eq_some_iff.1 hmoved
  obtain ⟨locals, -, hmoved⟩ := Option.bind_eq_some_iff.1 hmoved
  obtain ⟨stack, -, hmoved⟩ := Option.bind_eq_some_iff.1 hmoved
  cases hmoved
  exact Option.some.inj (hoffset.symm.trans hk)

/-- **A relocated table means what the table meant.** It is read back with offsets that increase,
    and from any first locals without allocations its states are those of the old table at the
    positions that are kept, in order, each at its new offset and with every allocation at its
    new site. -/
theorem readFrames_relocateFrames {newOffset : Nat → Option Nat} {body out : Bytes}
    (small : ∀ n k, newOffset n = some k → k ≤ 0xffff)
    (h : relocateFrames newOffset body = .ok out) :
    ∃ frames moved, readFrames body = .ok frames ∧ readFrames out = .ok moved ∧
      (moved.map Frame.offset).Pairwise (· < ·) ∧
      ∀ locals : List VerificationType, (∀ t ∈ locals, t.site? = none) →
        (survivors newOffset (interpret locals frames)).mapM (FrameState.relocate? newOffset) =
          some (interpret locals moved) := by
  obtain ⟨frames, hframes, h⟩ := bind_eq_ok.1 h
  obtain ⟨t, ht, h⟩ := bind_eq_ok.1 h
  cases h
  obtain ⟨done, htracks⟩ := FrameTable.tracks_start.addAll small ht
  rw [List.nil_append] at htracks
  refine ⟨frames, done.reverse, hframes, htracks.readFrames_bytes (length_readFrames_le hframes),
    ?_, htracks.states⟩
  rw [List.map_reverse, List.pairwise_reverse]
  exact htracks.decreasing

/-- Code that grew by three bytes and lost position 10: the local appended there is carried to
    position 15, and its allocation moves along. -/
def grownByThree (n : Nat) : Option Nat :=
  if n = 10 ∨ 20 < n then none else some (n + 3)

theorem readFrames_relocateFrames_grownByThree :
    ∃ frames moved, readFrames [0, 2, 252, 0, 10, 8, 0, 4, 4] = .ok frames ∧
      readFrames [0, 1, 252, 0, 18, 8, 0, 7] = .ok moved ∧
      (moved.map Frame.offset).Pairwise (· < ·) ∧
      ∀ locals : List VerificationType, (∀ t ∈ locals, t.site? = none) →
        (survivors grownByThree (interpret locals frames)).mapM
          (FrameState.relocate? grownByThree) = some (interpret locals moved) := by
  refine readFrames_relocateFrames (fun n k hk => ?_) rfl
  unfold grownByThree at hk
  split at hk
  · cases hk
  · rename_i hin
    cases hk
    omega

end Rewire
