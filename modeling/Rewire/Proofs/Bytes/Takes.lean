import Mathlib
import Rewire.Proofs.Bytes.Fit
import Rewire.Proofs.Bytes.Reads

/-!
# Bytes that a reader took

The converse of `Reads`: from what a reader gives, the bytes it went over can be told. This file
fixes

* the relation (`Reader.Takes`) between a value that was read and the bytes it was read from, which
  follows the structure of readers (`takes_bind`, …);
* the words and byte strings that the basic readers take (`takes_u8`, `takes_u16`, …);
* lists with their number in front, as they are read (`takes_counted`) and written
  (`exists_countedBytes`);
* readers that have to end where the input ends (`Reader.TakesAll`), which take all of it
  (`TakesAll.onBytes`).
-/

namespace Rewire

theorem be64_word64 (high low : UInt32) : be64 (word64 high low) = be32 high ++ be32 low := by
  have hhigh := high.toNat_lt
  have hlow := low.toNat_lt
  have hword : (word64 high low).toNat = high.toNat * 0x100000000 + low.toNat := by
    rw [word64, UInt64.toNat_ofNat']
    omega
  rw [be64, hword]
  congr 2
  · apply UInt32.toNat_inj.1
    rw [UInt32.toNat_ofNat']
    omega
  · apply UInt32.toNat_inj.1
    rw [UInt32.toNat_ofNat']
    omega

namespace Reader

variable {α β : Type} {r : Reader α} {f : α → Reader β} {P : α → Bytes → Prop}
  {Q : β → Bytes → Prop}

/-! ## 1. The relation -/

/-- Whether a reader that gives a value has moved over bytes that are related to the value, and over
    nothing else. -/
def Takes (r : Reader α) (spells : α → Bytes → Prop) : Prop :=
  ∀ c a c', r c = .ok (a, c') → ∃ bytes, spells a bytes ∧ BytesAt c.data c.offset bytes ∧
    c' = ⟨c.data, c.offset + bytes.length⟩

theorem takes_pure {a : α} (h : P a []) : Takes (pure a) P := by
  intro c b c' hb
  obtain ⟨rfl, rfl⟩ := pure_eq_ok.1 hb
  exact ⟨[], h, bytesAt_nil _ _, rfl⟩

/-- Readers one after another take bytes one after another. -/
theorem takes_bind (h : Takes r P) (hf : ∀ a x, P a x → Takes (f a) fun b y => Q b (x ++ y)) :
    Takes (r >>= f) Q := by
  intro c b c' hb
  obtain ⟨a, d, ha, hb⟩ := bind_eq_ok.1 hb
  obtain ⟨x, hx, hat, rfl⟩ := h c a d ha
  obtain ⟨y, hy, hat', rfl⟩ := hf a x hx _ b c' hb
  refine ⟨x ++ y, hy, bytesAt_append.2 ⟨hat, hat'⟩, ?_⟩
  rw [List.length_append, Nat.add_assoc]

theorem takes_map (make : α → β) (h : Takes r P) (hmake : ∀ a x, P a x → Q (make a) x) :
    Takes (r >>= fun a => pure (make a)) Q :=
  takes_bind h fun a x ha => takes_pure (by rw [List.append_nil]; exact hmake a x ha)

theorem Takes.imp {P' : α → Bytes → Prop} (h : Takes r P) (himp : ∀ a x, P a x → P' a x) :
    Takes r P' := by
  intro c a c' ha
  obtain ⟨x, hx, hat⟩ := h c a c' ha
  exact ⟨x, himp a x hx, hat⟩

theorem takes_during (activity : Activity) (h : Takes r P) : Takes (during activity r) P := by
  intro c a c' ha
  have ha : during activity (r c : Outcome (α × Cursor)) = .ok (a, c') := ha
  exact h c a c' (Rewire.during_eq_ok.1 ha)

theorem takes_fail (fault : Fault) : Takes (fail fault : Reader α) P :=
  fun _ _ _ h => nomatch h

/-! ## 2. Words -/

theorem takes_u8 : Takes u8 fun b bytes => bytes = [b] := by
  intro c b c' h
  unfold u8 at h
  split at h
  · rename_i hb
    cases h
    exact ⟨[b], rfl, bytesAt_cons.2 ⟨hb, bytesAt_nil _ _⟩, rfl⟩
  · cases h

theorem takes_u16 : Takes u16 fun v bytes => bytes = be16 v := by
  intro c v c' h
  obtain ⟨w, hw, h⟩ := Rewire.bind_eq_ok.1 h
  cases h
  rw [Rewire.during_eq_ok] at hw
  unfold u16At at hw
  split at hw
  · rename_i a b ha hb
    cases hw
    refine ⟨_, rfl, ?_, rfl⟩
    rw [be16_word16]
    exact bytesAt_cons.2 ⟨ha, bytesAt_cons.2 ⟨hb, bytesAt_nil _ _⟩⟩
  · cases hw

theorem takes_u32 : Takes u32 fun v bytes => bytes = be32 v := by
  intro c v c' h
  obtain ⟨w, hw, h⟩ := Rewire.bind_eq_ok.1 h
  cases h
  rw [Rewire.during_eq_ok] at hw
  unfold u32At at hw
  split at hw
  · rename_i a b d e ha hb hd he
    cases hw
    refine ⟨_, rfl, ?_, rfl⟩
    rw [be32_word32]
    exact bytesAt_cons.2 ⟨ha, bytesAt_cons.2 ⟨hb, bytesAt_cons.2 ⟨hd, bytesAt_cons.2 ⟨he,
      bytesAt_nil _ _⟩⟩⟩⟩
  · cases hw

theorem takes_u64 : Takes u64 fun v bytes => bytes = be64 v := by
  refine takes_bind takes_u32 fun high _ hhigh => takes_bind takes_u32 fun low _ hlow =>
    takes_pure ?_
  rw [hhigh, hlow, List.append_nil, be64_word64]

/-- A byte string is taken as it is. -/
theorem takes_bytes (n : Nat) :
    Takes (Reader.bytes n) fun b bytes => bytes = b ∧ b.length = n := by
  intro c b c' h
  simp only [Reader.bytes] at h
  split at h
  · cases h
  split at h
  · rename_i hfits
    cases h
    have hlength : (c.data.extract c.offset (c.offset + n)).toList.length = n := by
      simp only [Array.length_toList, Array.size_extract]
      omega
    refine ⟨_, ⟨rfl, hlength⟩, ?_, by rw [hlength]⟩
    rw [BytesAt, Array.toList_extract, List.extract_eq_take_drop]
    exact List.take_prefix _ _
  · cases h

theorem gives_bytes (n : Nat) : Gives (Reader.bytes n) fun b => b.length = n := by
  intro c b c' h
  obtain ⟨_, ⟨-, hlength⟩, -⟩ := takes_bytes n c b c' h
  exact hlength

/-! ## 3. Repetition -/

/-- A counted list takes the bytes of its elements one after another. -/
theorem takes_times (h : Takes r P) (n : Nat) : Takes (times n r) fun l bytes =>
    l.length = n ∧ ∃ chunks, List.Forall₂ P l chunks ∧ bytes = chunks.flatten := by
  induction n with
  | zero => exact takes_pure ⟨rfl, [], .nil, rfl⟩
  | succ n ih =>
    rw [times_succ]
    refine takes_bind h fun a x ha => takes_bind ih fun rest y hrest => takes_pure ?_
    obtain ⟨rfl, chunks, hchunks, rfl⟩ := hrest
    refine ⟨rfl, x :: chunks, .cons ha hchunks, ?_⟩
    rw [List.append_nil, List.flatten_cons]

/-- If there is only one way to write each element, there is one for the list. -/
theorem takes_times_spelled {spelled : α → Bytes} (h : Takes r fun a bytes => bytes = spelled a)
    (n : Nat) : Takes (times n r) fun l bytes => l.length = n ∧ bytes = l.flatMap spelled := by
  refine (takes_times h n).imp fun l bytes hl => ?_
  obtain ⟨hlength, chunks, hchunks, rfl⟩ := hl
  have heq : List.Forall₂ (· = ·) (l.map spelled) chunks :=
    List.forall₂_map_left_iff.2 (hchunks.imp fun _ _ => Eq.symm)
  rw [List.forall₂_eq_eq_eq] at heq
  exact ⟨hlength, by rw [← heq, List.flatMap_def]⟩

/-- The bytes of a counted list: the number of its elements, then their bytes. -/
def countedBytes (activity : Activity) (write : α → Outcome Bytes) (l : List α) : Outcome Bytes := do
  let count ← fitUnsigned16 activity l.length
  return be16 count ++ (← l.mapM write).flatten

/-- **A counted list** is written as the bytes it was read from if its elements are. -/
theorem takes_counted {write : α → Outcome Bytes} (activity : Activity)
    (h : Takes r fun a bytes => write a = .ok bytes) :
    Takes (u16 >>= fun count => times count.toNat r) fun l bytes =>
      countedBytes activity write l = .ok bytes := by
  refine takes_bind takes_u16 fun count x hx => (takes_times h count.toNat).imp fun l bytes hl => ?_
  obtain ⟨hlength, chunks, hchunks, rfl⟩ := hl
  refine Rewire.bind_eq_ok.2 ⟨count, ?_, Rewire.bind_eq_ok.2 ⟨chunks, mapM_eq_ok.2 hchunks, ?_⟩⟩
  · rw [hlength]
    exact fitUnsigned16_toNat activity count
  · rw [hx]
    rfl

/-- A counted list is written if there are few enough elements and each of them is. -/
theorem exists_countedBytes {write : α → Outcome Bytes} (activity : Activity) {l : List α}
    (few : l.length ≤ 0xffff) (h : ∀ a ∈ l, ∃ bytes, write a = .ok bytes) :
    ∃ bytes, countedBytes activity write l = .ok bytes := by
  obtain ⟨chunks, hchunks, -⟩ : ∃ chunks, l.mapM write = .ok chunks ∧
      List.Forall₂ (fun _ _ => True) l chunks := exists_mapM fun a ha => by
    obtain ⟨bytes, hbytes⟩ := h a ha
    exact ⟨bytes, hbytes, trivial⟩
  have hcount := fitUnsigned16_toNat activity (UInt16.ofNat l.length)
  rw [toNat_ofNat16 few] at hcount
  exact ⟨_, Rewire.bind_eq_ok.2 ⟨_, hcount, Rewire.bind_eq_ok.2 ⟨chunks, hchunks, rfl⟩⟩⟩

/-! ## 4. Whole inputs -/

/-- Whether a reader that gives a value has taken all that was ahead, which is related to the
    value. -/
def TakesAll (r : Reader α) (spells : α → Bytes → Prop) : Prop :=
  ∀ c a c', r c = .ok (a, c') → spells a c.rest

theorem takesAll_bind (h : Takes r P)
    (hf : ∀ a x, P a x → TakesAll (f a) fun b y => Q b (x ++ y)) : TakesAll (r >>= f) Q := by
  intro c b c' hb
  obtain ⟨a, d, ha, hb⟩ := bind_eq_ok.1 hb
  obtain ⟨x, hx, ⟨rest, hrest⟩, rfl⟩ := h c a d ha
  have hahead : (⟨c.data, c.offset + x.length⟩ : Cursor).rest = rest := by
    rw [Cursor.rest, ← List.drop_drop, ← hrest, List.drop_left]
  have hb := hf a x hx _ b c' hb
  rw [hahead, hrest] at hb
  exact hb

/-- **A reader that takes all** was run on the bytes that are related to its value. -/
theorem TakesAll.onBytes {input : Bytes} {a : α} (h : TakesAll r P)
    (ha : r.onBytes input = .ok a) : P a input := by
  obtain ⟨⟨b, c⟩, hread, ha⟩ := Rewire.bind_eq_ok.1 ha
  cases ha
  have hall := h _ b c hread
  rwa [Cursor.rest_ofBytes] at hall

end Reader

end Rewire
