import Mathlib
import Rewire.Pool.Codec
import Rewire.Attribute
import Rewire.Proofs.Bytes.At

/-!
# Readers and the bytes they read

A reader reads a byte string as a value when, wherever the byte string stands, the reader finds the
value there and moves to the end of the byte string. Positions are 64-bit numbers, so it may refuse
input that is not shorter than `positionLimit`. This file fixes

* the relation (`Reader.Reads`), which follows the structure of readers (`reads_bind`, …);
* the words and byte strings that the basic readers read (`reads_u8`, `reads_u16`, …);
* repetitions: counted lists (`reads_times`, `reads_counted`) and repeated steps on a state
  (`reads_repeated_succ`);
* running a reader on a byte string that starts with what it reads (`Reads.onBytes`), or that it
  reads to the end (`ReadsLast.onBytes_eq_ok`);
* the equations of steps that succeed, as for other steps (`Reader.bind_eq_ok`, …);
* what is known of whatever a reader gives (`Reader.Gives`), which follows the structure of readers,
  too (`gives_bind`, `gives_repeated`, …).
-/

namespace Rewire

namespace Reader

variable {α β σ : Type}

/-! ## 1. The relation -/

/-- What a reader has to give for a cursor in an input: the value and the cursor after it, or a
    failure if the input is too long for 64-bit positions. -/
def Lands (input : Bytes) (found : Outcome (α × Cursor)) (a : α) (position : Nat) : Prop :=
  found = .ok (a, ⟨input.toArray, position⟩) ∨
    positionLimit ≤ input.length ∧ ∃ f, found = .error f

/-- Whether a reader reads a byte string, wherever it stands, as the given value. -/
def Reads (r : Reader α) (bytes : Bytes) (a : α) : Prop :=
  ∀ before after : Bytes, Lands (before ++ bytes ++ after)
    (r ⟨(before ++ bytes ++ after).toArray, before.length⟩) a (before.length + bytes.length)

theorem bind_eq_ok {r : Reader α} {f : α → Reader β} {c c' : Cursor} {b : β} :
    (r >>= f) c = .ok (b, c') ↔ ∃ a d, r c = .ok (a, d) ∧ f a d = .ok (b, c') := by
  show (r c >>= fun (a, d) => f a d) = _ ↔ _
  rw [Rewire.bind_eq_ok]
  constructor
  · rintro ⟨⟨a, d⟩, h, hf⟩
    exact ⟨a, d, h, hf⟩
  · rintro ⟨a, d, h, hf⟩
    exact ⟨(a, d), h, hf⟩

theorem pure_eq_ok {a b : α} {c c' : Cursor} :
    (pure a : Reader α) c = .ok (b, c') ↔ a = b ∧ c = c' := by
  show (Except.ok (a, c) : Outcome (α × Cursor)) = _ ↔ _
  simp

theorem lift_eq_ok {x : Outcome α} {b : α} {c c' : Cursor} :
    (liftM x : Reader α) c = .ok (b, c') ↔ x = .ok b ∧ c = c' := by
  cases x with
  | error e =>
    show (Except.error e : Outcome (α × Cursor)) = _ ↔ _
    simp
  | ok a =>
    show (Except.ok (a, c) : Outcome (α × Cursor)) = _ ↔ _
    simp

theorem Lands.bind {input : Bytes} {found : Outcome (α × Cursor)} {f : α → Reader β} {a : α}
    {b : β} {position next : Nat} (h : Lands input found a position)
    (hf : Lands input (f a ⟨input.toArray, position⟩) b next) :
    Lands input (found >>= fun x => f x.1 x.2) b next := by
  rcases h with rfl | ⟨long, failure, rfl⟩
  · exact hf
  · exact .inr ⟨long, failure, rfl⟩

theorem reads_pure (a : α) : Reads (pure a) [] a :=
  fun _ _ => .inl rfl

theorem reads_bind {r : Reader α} {f : α → Reader β} {bytes more : Bytes} {a : α} {b : β}
    (h : Reads r bytes a) (hf : Reads (f a) more b) : Reads (r >>= f) (bytes ++ more) b := by
  intro before after
  have h₁ := h before (more ++ after)
  have h₂ := hf (before ++ bytes) after
  simp only [← List.append_assoc] at h₁ h₂ ⊢
  rw [List.length_append] at h₂
  rw [List.length_append, ← Nat.add_assoc]
  exact h₁.bind h₂

theorem reads_map {r : Reader α} {bytes : Bytes} {a : α} (f : α → β) (h : Reads r bytes a) :
    Reads (r >>= fun a => pure (f a)) bytes (f a) := by
  have hf : Reads (r >>= fun a => pure (f a)) (bytes ++ []) (f a) :=
    reads_bind h (reads_pure (f a))
  rwa [List.append_nil] at hf

theorem reads_during {r : Reader α} {bytes : Bytes} {a : α} (activity : Activity)
    (h : Reads r bytes a) : Reads (during activity r) bytes a := by
  intro before after
  show Lands _ (during activity (r _ : Outcome (α × Cursor))) a _
  rcases h before after with h | ⟨long, failure, h⟩
  · rw [h]
    exact .inl rfl
  · rw [h]
    exact .inr ⟨long, _, rfl⟩

/-- A step that does not read. -/
theorem reads_lift {x : Outcome α} {a : α} (h : x = .ok a) : Reads (liftM x) [] a := by
  subst h
  exact fun _ _ => .inl rfl

/-- **Reading a byte string from its start.** -/
theorem Reads.onBytes {r : Reader α} {bytes after : Bytes} {a : α} (h : Reads r bytes a)
    (small : (bytes ++ after).length < positionLimit) : r.onBytes (bytes ++ after) = .ok a := by
  have h := h [] after
  simp only [List.nil_append] at h
  rcases h with h | ⟨long, -⟩
  · exact Rewire.bind_eq_ok.2 ⟨_, h, rfl⟩
  · exact absurd small (Nat.not_lt.2 long)

theorem Reads.onBytes_self {r : Reader α} {bytes : Bytes} {a : α} (h : Reads r bytes a)
    (small : bytes.length < positionLimit) : r.onBytes bytes = .ok a := by
  rw [← List.append_nil bytes] at small ⊢
  exact h.onBytes small

/-- What follows a byte string that is read. -/
theorem Reads.of_bind {r : Reader α} {f : α → Reader β} {before bytes after : Bytes} {a : α} {b : β}
    {c : Cursor} (h : Reads r bytes a)
    (hb : (r >>= f) ⟨(before ++ (bytes ++ after)).toArray, before.length⟩ = .ok (b, c)) :
    f a ⟨(before ++ bytes ++ after).toArray, (before ++ bytes).length⟩ = .ok (b, c) := by
  obtain ⟨a', d, ha, hb⟩ := bind_eq_ok.1 hb
  rw [← List.append_assoc] at ha
  rcases h before after with hread | ⟨-, failure, hread⟩
  · have heq := ha.symm.trans hread
    cases heq
    rw [List.length_append]
    exact hb
  · have heq := ha.symm.trans hread
    cases heq

/-- Whether a reader reads a byte string, at the end of the input, as the given value. -/
def ReadsLast (r : Reader α) (bytes : Bytes) (a : α) : Prop :=
  ∀ before : Bytes, Lands (before ++ bytes) (r ⟨(before ++ bytes).toArray, before.length⟩) a
    (before ++ bytes).length

theorem readsLast_bind {r : Reader α} {f : α → Reader β} {bytes more : Bytes} {a : α} {b : β}
    (h : Reads r bytes a) (hf : ReadsLast (f a) more b) : ReadsLast (r >>= f) (bytes ++ more) b := by
  intro before
  have h₁ := h before more
  have h₂ := hf (before ++ bytes)
  rw [show (before ++ bytes).length = before.length + bytes.length from List.length_append] at h₂
  rw [← List.append_assoc]
  exact h₁.bind h₂

/-- A value that is read to the end of an input is the one the input was written for. -/
theorem ReadsLast.onBytes_eq_ok {r : Reader α} {bytes : Bytes} {a b : α} (h : ReadsLast r bytes a)
    (hb : r.onBytes bytes = .ok b) : b = a := by
  obtain ⟨⟨b', c⟩, hread, hb⟩ := Rewire.bind_eq_ok.1 hb
  cases hb
  rcases h [] with h | ⟨-, failure, h⟩
  · rw [List.nil_append] at h
    rw [Cursor.ofBytes] at hread
    rw [show (⟨bytes.toArray, 0⟩ : Cursor) = ⟨bytes.toArray, [].length⟩ from rfl] at hread
    have heq := hread.symm.trans h
    cases heq
    rfl
  · rw [List.nil_append] at h
    have heq := hread.symm.trans h
    cases heq

/-- An input that is short enough is read to its end. -/
theorem ReadsLast.onBytes {r : Reader α} {bytes : Bytes} {a : α} (h : ReadsLast r bytes a)
    (small : bytes.length < positionLimit) : r.onBytes bytes = .ok a := by
  rcases h [] with h | ⟨long, -⟩
  · exact Rewire.bind_eq_ok.2 ⟨_, h, rfl⟩
  · exact absurd small (Nat.not_lt.2 long)

/-! ## 2. Words -/

theorem reads_u8 (b : UInt8) : Reads u8 [b] b := by
  intro before after
  left
  have h := (bytesAt_cons.1 (bytesAt_of_append before [b] after)).1
  simp only [u8]
  rw [h]
  rfl

/-- A byte in front of what is read next. -/
theorem reads_u8_bind {f : UInt8 → Reader α} {bytes : Bytes} {a : α} (b : UInt8)
    (h : Reads (f b) bytes a) : Reads (u8 >>= f) (b :: bytes) a :=
  reads_bind (reads_u8 b) h

theorem reads_u16 (v : UInt16) : Reads u16 (be16 v) v := by
  intro before after
  left
  have h := u16At_of_bytesAt (bytesAt_of_append before (be16 v) after)
  simp only [u16]
  rw [h]
  rfl

/-- A word in front of what is read next. -/
theorem reads_u16_bind {f : UInt16 → Reader α} {bytes : Bytes} {a : α} (v : UInt16)
    (h : Reads (f v) bytes a) : Reads (u16 >>= f) (be16 v ++ bytes) a :=
  reads_bind (reads_u16 v) h

theorem reads_u32 (v : UInt32) : Reads u32 (be32 v) v := by
  intro before after
  left
  have h := u32At_of_bytesAt (bytesAt_of_append before (be32 v) after)
  simp only [u32]
  rw [h]
  rfl

theorem reads_u64 (v : UInt64) : Reads u64 (be64 v) v := by
  have hlow := reads_map (word64 (UInt32.ofNat (v.toNat / 0x100000000)))
    (reads_u32 (UInt32.ofNat v.toNat))
  have h : Reads u64 (be64 v) _ := reads_bind (reads_u32 _) hlow
  rwa [word64_be64] at h

theorem reads_bytes (bytes : Bytes) : Reads (Reader.bytes bytes.length) bytes bytes := by
  intro before after
  have hfits : before.length + bytes.length ≤ (before ++ bytes ++ after).toArray.size := by
    simp only [List.size_toArray, List.length_append]
    omega
  simp only [Reader.bytes]
  by_cases hstop : positionLimit ≤ before.length + bytes.length
  · rw [if_pos hstop]
    refine .inr ⟨hstop.trans ?_, _, rfl⟩
    rwa [List.size_toArray] at hfits
  · rw [if_neg hstop, if_pos hfits]
    left
    simp

/-! ## 3. Repetition -/

theorem times_succ (count : Nat) (step : Reader α) :
    times (count + 1) step = (do
      let a ← step
      let rest ← times count step
      return a :: rest) := by
  unfold times
  rw [List.range_succ_eq_map, List.mapM_cons, List.mapM_map]
  rfl

/-- A reader of one entry, repeated, reads entries one after another. -/
theorem reads_times {γ : Type} {step : Reader α} {entries : List γ} {bytes : γ → Bytes}
    (value : γ → α) (h : ∀ e ∈ entries, Reads step (bytes e) (value e)) :
    Reads (times entries.length step) (entries.flatMap bytes) (entries.map value) := by
  induction entries with
  | nil => exact reads_pure []
  | cons e rest ih =>
    rw [List.length_cons, times_succ, List.flatMap_cons, List.map_cons]
    have hrest := ih fun e' he' => h e' (List.mem_cons_of_mem e he')
    exact reads_bind (h e List.mem_cons_self) (reads_map (value e :: ·) hrest)

/-- A step on a state, repeated a number of times. -/
def repeated (count : Nat) (step : σ → Reader σ) (s : σ) : Reader σ :=
  (List.range count).foldlM (fun s _ => step s) s

theorem repeated_zero (step : σ → Reader σ) (s : σ) : repeated 0 step s = pure s := rfl

theorem repeated_succ (count : Nat) (step : σ → Reader σ) (s : σ) :
    repeated (count + 1) step s = (do
      let t ← repeated count step s
      step t) := by
  unfold repeated
  rw [List.range_succ, List.foldlM_append]
  simp only [List.foldlM_cons, List.foldlM_nil, bind_pure]

theorem reads_repeated_succ {count : Nat} {step : σ → Reader σ} {s t u : σ} {bytes more : Bytes}
    (h : Reads (repeated count step s) bytes t) (hlast : Reads (step t) more u) :
    Reads (repeated (count + 1) step s) (bytes ++ more) u := by
  rw [repeated_succ]
  exact reads_bind h hlast

/-! ## 4. Values that are read -/

/-- Whether what a reader gives always satisfies a condition. -/
def Gives (r : Reader α) (post : α → Prop) : Prop :=
  ∀ c a c', r c = .ok (a, c') → post a

section Gives

variable {r : Reader α} {f : α → Reader β} {P : α → Prop} {Q : β → Prop}

theorem gives_pure {a : α} (h : P a) : Gives (pure a) P := by
  intro c b c' hb
  rw [← (pure_eq_ok.1 hb).1]
  exact h

theorem gives_bind (h : Gives r P) (hf : ∀ a, P a → Gives (f a) Q) : Gives (r >>= f) Q := by
  intro c b c' hb
  obtain ⟨a, d, ha, hb⟩ := bind_eq_ok.1 hb
  exact hf a (h c a d ha) d b c' hb

theorem gives_any : Gives r fun _ => True :=
  fun _ _ _ _ => trivial

theorem gives_lift {x : Outcome α} (h : ∀ a, x = .ok a → P a) : Gives (liftM x) P :=
  fun _ a _ ha => h a (lift_eq_ok.1 ha).1

theorem gives_times (n : Nat) (r : Reader α) : Gives (times n r) fun l => l.length = n := by
  induction n with
  | zero => exact gives_pure rfl
  | succ n ih =>
    rw [times_succ]
    exact gives_bind gives_any fun a _ => gives_bind ih fun l hl =>
      gives_pure (congrArg (· + 1) hl)

/-- What a reader gives, every value of a list that it reads satisfies. -/
theorem gives_times_forall (h : Gives r P) (n : Nat) : Gives (times n r) fun l => ∀ a ∈ l, P a := by
  induction n with
  | zero => exact gives_pure fun _ ha => absurd ha List.not_mem_nil
  | succ n ih =>
    rw [times_succ]
    exact gives_bind h fun a ha => gives_bind ih fun l hl => gives_pure (List.forall_mem_cons.2 ⟨ha, hl⟩)

theorem Gives.and {Q : α → Prop} (hP : Gives r P) (hQ : Gives r Q) : Gives r fun a => P a ∧ Q a :=
  fun c a c' ha => ⟨hP c a c' ha, hQ c a c' ha⟩

/-- What a repeated step keeps. -/
theorem gives_repeated {step : σ → Reader σ} {P : σ → Prop} (hstep : ∀ s, P s → Gives (step s) P)
    (n : Nat) {s : σ} (h : P s) : Gives (repeated n step s) P := by
  induction n with
  | zero => exact gives_pure h
  | succ n ih =>
    rw [repeated_succ]
    exact gives_bind ih hstep

theorem Gives.onBytes {input : Bytes} {a : α} (h : Gives r P) (ha : r.onBytes input = .ok a) :
    P a := by
  obtain ⟨⟨a', c⟩, hread, ha⟩ := Rewire.bind_eq_ok.1 ha
  cases ha
  exact h _ a' c hread

end Gives

end Reader

end Rewire
