import Mathlib
import Rewire.ClassFile.Basic
import Rewire.Proofs.Attribute
import Rewire.Proofs.Pool.Codec

/-!
# Class files in bytes

A class file is read part by part, and has to end where its last attribute ends. This file shows

* that a class file which was read has a well-formed pool (`ClassFile.wellFormed_of_read`);
* that a class file is read back as it was written (`ClassFile.read_bytes`), also when nothing is
  known of its length but that it can be read (`ClassFile.read_bytes_eq_ok`);
* that a class file is written as the bytes it was read from (`ClassFile.bytes_of_read`).
-/

namespace Rewire

open Reader

/-! ## 1. Class files that are read -/

theorem Reader.gives_during {α : Type} {r : Reader α} {P : α → Prop} (activity : Activity)
    (h : Gives r P) : Gives (during activity r) P := by
  intro c a c' ha
  have ha : during activity (r c : Outcome (α × Cursor)) = .ok (a, c') := ha
  exact h c a c' (Rewire.during_eq_ok.1 ha)

theorem gives_classHead : Gives classHead fun head => head.pool.WellFormed := by
  refine gives_bind gives_any fun magic _ => ?_
  split
  · exact fun _ _ _ h => nomatch h
  · exact gives_bind gives_any fun _ _ => gives_bind gives_any fun _ _ =>
      gives_bind (gives_during _ gives_pool) fun pool hpool => gives_pure hpool

/-- What is known of a class file that was read. -/
theorem gives_classFile :
    Gives classFile fun c => c.pool.WellFormed ∧ c.interfaces.length ≤ 0xffff := by
  refine gives_bind gives_classHead fun head hhead => gives_bind gives_any fun _ _ =>
    gives_bind gives_any fun _ _ => gives_bind gives_any fun _ _ =>
    gives_bind gives_any fun count _ => gives_bind (gives_times _ _) fun interfaces hlength =>
    gives_bind gives_any fun _ _ => gives_bind gives_any fun _ _ => gives_bind gives_any fun _ _ =>
    gives_bind gives_any fun _ _ => gives_pure ⟨hhead, ?_⟩
  rw [hlength]
  exact Nat.le_of_lt_succ count.toNat_lt

namespace ClassFile

theorem wellFormed_of_read {data : Bytes} {c : ClassFile} (h : ClassFile.read data = .ok c) :
    c.pool.WellFormed := by
  obtain ⟨⟨c, cursor⟩, hread, h⟩ := Rewire.bind_eq_ok.1 h
  cases h
  exact (gives_classFile _ c cursor hread).1

theorem interfaces_of_read {data : Bytes} {c : ClassFile} (h : ClassFile.read data = .ok c) :
    c.interfaces.length ≤ 0xffff := by
  obtain ⟨⟨c, cursor⟩, hread, h⟩ := Rewire.bind_eq_ok.1 h
  cases h
  exact (gives_classFile _ c cursor hread).2

end ClassFile

/-! ## 2. Class files that are written -/

theorem reads_memberInfo {m : MemberInfo} {bytes : Bytes} (h : m.bytes = .ok bytes) :
    Reads memberInfo bytes m := by
  obtain ⟨attributes, hattributes, h⟩ := Rewire.bind_eq_ok.1 h
  cases h
  have hread := reads_map (MemberInfo.mk m.flags m.name m.descriptor)
    (reads_rawAttributes hattributes)
  simp only [List.append_assoc]
  exact reads_u16_bind _ (reads_u16_bind _ (reads_u16_bind _ hread))

theorem reads_times_of_forall₂ {α : Type} {step : Reader α} {l : List α} {chunks : List Bytes}
    (h : List.Forall₂ (fun a bytes => Reads step bytes a) l chunks) :
    Reads (times l.length step) chunks.flatten l := by
  induction h with
  | nil => exact reads_pure []
  | @cons a bytes rest more ha _ ih =>
    rw [List.length_cons, times_succ, List.flatten_cons]
    exact reads_bind ha (reads_map (a :: ·) ih)

theorem reads_members {members : List MemberInfo} {bytes : Bytes}
    (h : membersBytes members = .ok bytes) : Reads Reader.members bytes members := by
  obtain ⟨count, hcount, h⟩ := Rewire.bind_eq_ok.1 h
  obtain ⟨chunks, hchunks, h⟩ := Rewire.bind_eq_ok.1 h
  cases h
  obtain ⟨hlength, -⟩ := fitUnsigned16_eq_ok hcount
  have hread := reads_times_of_forall₂ ((mapM_eq_ok.1 hchunks).imp fun _ _ => reads_memberInfo)
  rw [← hlength] at hread
  exact reads_u16_bind count hread

theorem readsLast_finish {α : Type} (a : α) :
    ReadsLast (finish >>= fun _ => pure a) [] a := by
  intro before
  left
  refine Reader.bind_eq_ok.2 ⟨(), _, ?_, rfl⟩
  unfold finish
  rw [if_pos]
  · simp
  · simp [Cursor.remaining]

theorem reads_classHead {minorVersion majorVersion : UInt16} {pool : ConstantPool}
    (wf : pool.WellFormed) :
    Reads classHead (be32 classMagic ++ (be16 minorVersion ++ (be16 majorVersion ++ pool.bytes)))
      { minorVersion, majorVersion, pool } := by
  have hpool := reads_map (ClassHead.mk minorVersion majorVersion)
    (reads_during .readingPool (reads_pool wf))
  refine reads_bind (reads_u32 classMagic) ?_
  rw [if_neg (not_not_intro rfl)]
  exact reads_u16_bind _ (reads_u16_bind _ hpool)

/-- A class file that was written is read to its end. -/
theorem readsLast_classFile {c : ClassFile} {bytes : Bytes} (wf : c.pool.WellFormed)
    (few : c.interfaces.length ≤ 0xffff) (h : c.bytes = .ok bytes) :
    ReadsLast classFile bytes c := by
  obtain ⟨fields, hfields, h⟩ := Rewire.bind_eq_ok.1 h
  obtain ⟨methods, hmethods, h⟩ := Rewire.bind_eq_ok.1 h
  obtain ⟨attributes, hattributes, h⟩ := Rewire.bind_eq_ok.1 h
  cases h
  have hcount : (UInt16.ofNat c.interfaces.length).toNat = c.interfaces.length := toNat_ofNat16 few
  have hinterfaces : Reads (times c.interfaces.length u16) (c.interfaces.flatMap be16)
      (c.interfaces.map id) := reads_times id fun i _ => reads_u16 i
  rw [List.map_id, ← hcount] at hinterfaces
  have hrest : ReadsLast classFile
      ((be32 classMagic ++ (be16 c.minorVersion ++ (be16 c.majorVersion ++ c.pool.bytes))) ++
        (be16 c.flags ++ (be16 c.thisClass ++ (be16 c.superClass ++
          (be16 (UInt16.ofNat c.interfaces.length) ++ (c.interfaces.flatMap be16 ++
            (fields ++ (methods ++ (attributes ++ [])))))))) ) c :=
    readsLast_bind (reads_classHead wf) <| readsLast_bind (reads_u16 _) <|
      readsLast_bind (reads_u16 _) <| readsLast_bind (reads_u16 _) <|
      readsLast_bind (reads_u16 _) <| readsLast_bind hinterfaces <|
      readsLast_bind (reads_during _ (reads_members hfields)) <|
      readsLast_bind (reads_during _ (reads_members hmethods)) <|
      readsLast_bind (reads_during _ (reads_rawAttributes hattributes)) (readsLast_finish c)
  simpa only [List.append_assoc, List.append_nil] using hrest

namespace ClassFile

/-- **A class file is read back as it was written.** -/
theorem read_bytes {c : ClassFile} {bytes : Bytes} (wf : c.pool.WellFormed)
    (few : c.interfaces.length ≤ 0xffff) (h : c.bytes = .ok bytes)
    (small : bytes.length < positionLimit) : ClassFile.read bytes = .ok c :=
  (readsLast_classFile wf few h).onBytes small

/-- A class file that is read at all is read back as it was written. -/
theorem read_bytes_eq_ok {c c' : ClassFile} {bytes : Bytes} (wf : c.pool.WellFormed)
    (few : c.interfaces.length ≤ 0xffff) (h : c.bytes = .ok bytes)
    (hread : ClassFile.read bytes = .ok c') : c' = c :=
  (readsLast_classFile wf few h).onBytes_eq_ok hread

end ClassFile

/-! ## 3. Class files that were read are written back -/

theorem takes_memberInfo : Takes memberInfo fun m bytes => m.bytes = .ok bytes := by
  refine takes_bind takes_u16 fun flags x hx => takes_bind takes_u16 fun name y hy =>
    takes_bind takes_u16 fun descriptor z hz =>
    takes_map (MemberInfo.mk flags name descriptor) takes_rawAttributes fun attributes w hw => ?_
  refine Rewire.bind_eq_ok.2 ⟨w, hw, ?_⟩
  rw [hx, hy, hz]
  simp only [← List.append_assoc]
  rfl

/-- Fields or methods are written as the bytes they were read from. -/
theorem takes_members : Takes Reader.members fun members bytes => membersBytes members = .ok bytes :=
  takes_counted .countingMembers takes_memberInfo

theorem takes_classHead : Takes classHead fun head bytes =>
    bytes = be32 classMagic ++ be16 head.minorVersion ++ be16 head.majorVersion ++
      head.pool.bytes := by
  refine takes_bind takes_u32 fun magic x hx => ?_
  split
  · exact takes_fail _
  · rename_i hmagic
    refine takes_bind takes_u16 fun minor y hy => takes_bind takes_u16 fun major z hz =>
      takes_map (ClassHead.mk minor major) (takes_during _ takes_pool) fun pool w hw => ?_
    rw [hx, hy, hz, hw, not_not.1 hmagic]
    simp only [List.append_assoc]

theorem takesAll_finish {α : Type} (a : α) :
    TakesAll (finish >>= fun _ => pure a) fun b bytes => b = a ∧ bytes = [] := by
  intro c b c' h
  obtain ⟨_, d, hfinish, h⟩ := Reader.bind_eq_ok.1 h
  obtain ⟨rfl, rfl⟩ := Reader.pure_eq_ok.1 h
  unfold finish at hfinish
  split at hfinish
  · rename_i hremaining
    exact ⟨rfl, List.length_eq_zero_iff.1 (c.length_rest.trans hremaining)⟩
  · cases hfinish

/-- A class file is read from all of its bytes. -/
theorem takesAll_classFile : TakesAll classFile fun c bytes => c.bytes = .ok bytes := by
  refine takesAll_bind takes_classHead fun head x₁ h₁ => takesAll_bind takes_u16 fun flags x₂ h₂ =>
    takesAll_bind takes_u16 fun thisClass x₃ h₃ => takesAll_bind takes_u16 fun superClass x₄ h₄ =>
    takesAll_bind takes_u16 fun count x₅ h₅ =>
    takesAll_bind (takes_times_spelled takes_u16 _) fun interfaces x₆ h₆ =>
    takesAll_bind (takes_during _ takes_members) fun fields x₇ h₇ =>
    takesAll_bind (takes_during _ takes_members) fun methods x₈ h₈ =>
    takesAll_bind (takes_during _ takes_rawAttributes) fun attributes x₉ h₉ => ?_
  -- All parts are taken; what is left has to be empty, since reading ends with `finish`.
  intro cursor c cursor' h
  obtain ⟨rfl, hrest⟩ := takesAll_finish _ cursor c cursor' h
  refine Rewire.bind_eq_ok.2 ⟨x₇, h₇, Rewire.bind_eq_ok.2 ⟨x₈, h₈,
    Rewire.bind_eq_ok.2 ⟨x₉, h₉, ?_⟩⟩⟩
  have hcount : UInt16.ofNat interfaces.length = count := by rw [h₆.1, UInt16.ofNat_toNat]
  rw [hrest, h₁, h₂, h₃, h₄, h₅, h₆.2]
  simp only [hcount, List.append_assoc, List.append_nil]
  rfl

namespace ClassFile

/-- **A class file is written as the bytes it was read from.** -/
theorem bytes_of_read {data : Bytes} {c : ClassFile} (h : ClassFile.read data = .ok c) :
    c.bytes = .ok data :=
  takesAll_classFile.onBytes h

end ClassFile

end Rewire
