import Mathlib
import Rewire.Proofs.Bytes.Fit
import Rewire.Proofs.Bytes.Reads
import Rewire.Proofs.Bytes.Takes
import Rewire.Proofs.Pool.Growth

/-!
# Constant pools in bytes

A pool is read constant by constant, each put at the end of the pool read so far. This file shows

* that a pool which was read is well-formed (`gives_pool`);
* that a well-formed pool is read back as it was written (`reads_pool`);
* that a pool is written as the bytes it was read from (`takes_pool`).
-/

namespace Rewire

open Reader ConstantPool

/-! ## 1. Constants that are read -/

section Constants

variable {α : Type} {r : Reader α}

theorem gives_noText {make : α → Constant} (h : ∀ a bytes, make a ≠ .utf8 bytes) :
    Gives (r >>= fun a => pure (make a)) Constant.TextFits :=
  gives_bind gives_any fun a _ => gives_pure fun bytes hb => absurd hb (h a bytes)

theorem gives_pair {make : UInt16 → UInt16 → Constant} (h : ∀ a b bytes, make a b ≠ .utf8 bytes) :
    Gives (pair make) Constant.TextFits :=
  gives_bind gives_any fun a _ => gives_noText (h a)

end Constants

/-- Texts that are read are as long as two bytes can tell. -/
theorem gives_constant (tag : UInt8) (slot : Nat) :
    Gives (Reader.constant tag slot) Constant.TextFits := by
  unfold Reader.constant
  split
  · refine gives_bind gives_any fun length _ => gives_bind (gives_bytes _) fun bytes hlength =>
      gives_pure fun b hb => ?_
    cases hb
    rw [hlength]
    exact Nat.le_of_lt_succ length.toNat_lt
  all_goals first
    | exact gives_noText fun _ _ => nofun
    | exact gives_pair fun _ _ _ => nofun
    | exact gives_bind gives_any fun _ _ => gives_noText fun _ _ => nofun
    | exact fun _ _ _ h => nomatch h

/-! ## 2. Pools that are read -/

/-- Reading constants never shortens a pool. -/
theorem gives_constants_size {count : Nat} {p : ConstantPool} :
    Gives (Reader.constants count p) fun q => p.size ≤ q.size := by
  induction hn : count - p.size using Nat.strong_induction_on generalizing p with
  | _ n ih =>
    rw [Reader.constants]
    split
    · refine gives_bind gives_any fun tag _ => gives_bind gives_any fun c _ d q d' h => ?_
      have hsize := p.size_push c
      have hwidth := c.width_pos
      have hrest := ih (count - (p.push c).size) (by omega) rfl d q d' h
      omega
    · exact gives_pure (Nat.le_refl _)

theorem gives_constants {count : Nat} {p : ConstantPool} (wf : p.WellFormed) :
    Gives (Reader.constants count p) fun q => q.size ≤ maxSlots → q.WellFormed := by
  induction hn : count - p.size using Nat.strong_induction_on generalizing p with
  | _ n ih =>
    rw [Reader.constants]
    split
    · refine gives_bind gives_any fun tag _ => gives_bind (gives_constant tag p.size)
        fun c fits d q d' h hsmall => ?_
      have hsize := p.size_push c
      have hwidth := c.width_pos
      have hgrown := gives_constants_size d q d' h
      exact ih (count - (p.push c).size) (by omega) (.push wf (by omega) fits) rfl d q d' h hsmall
    · exact gives_pure fun _ => wf

/-- **A pool that was read is well-formed.** -/
theorem gives_pool : Gives Reader.pool ConstantPool.WellFormed := by
  refine gives_bind gives_any fun count _ => gives_bind (gives_constants .empty) fun q hq => ?_
  split
  · rename_i hsize
    refine gives_pure (hq ?_)
    rw [hsize]
    exact Nat.le_of_lt_succ count.toNat_lt
  · exact fun _ _ _ h => nomatch h

/-! ## 3. Pools that are written -/

/-- The pool with constants added at the end. -/
def ConstantPool.pushAll (p : ConstantPool) (cs : List Constant) : ConstantPool :=
  cs.foldl ConstantPool.push p

theorem pushAll_cons (p : ConstantPool) (c : Constant) (rest : List Constant) :
    p.pushAll (c :: rest) = (p.push c).pushAll rest := rfl

theorem constants_push (p : ConstantPool) (c : Constant) :
    (p.push c).constants = p.constants ++ [c] := by
  unfold ConstantPool.constants
  rw [toList_slots_push, List.filterMap_append]
  unfold Constant.width
  split <;> rfl

/-- A well-formed pool is made of its constants, whose texts fit. -/
theorem ConstantPool.WellFormed.eq_pushAll {p : ConstantPool} (h : p.WellFormed) :
    p = ConstantPool.empty.pushAll p.constants ∧ ∀ c ∈ p.constants, c.TextFits := by
  induction h with
  | empty => exact ⟨rfl, fun c hc => (List.not_mem_nil hc).elim⟩
  | @push p c h _ fits ih =>
    rw [constants_push]
    constructor
    · rw [pushAll, List.foldl_append]
      exact congrArg (ConstantPool.push · c) ih.1
    · intro d hd
      rcases List.mem_append.1 hd with hd | hd
      · exact ih.2 d hd
      · rw [List.mem_singleton.1 hd]
        exact fits

/-- A constant is read back as it was written. -/
theorem reads_constant {c : Constant} (fits : c.TextFits) (slot : Nat) :
    Reads (u8 >>= fun tag => Reader.constant tag slot) c.bytes c := by
  have hword : ∀ (tag : UInt8) (make : UInt16 → Constant) (a : UInt16),
      Reader.constant tag slot = (u16 >>= fun a => pure (make a)) →
        Reads (u8 >>= fun tag => Reader.constant tag slot) (tag :: be16 a) (make a) :=
    fun tag make a heq => reads_u8_bind tag (heq ▸ reads_map make (reads_u16 a))
  have hpair : ∀ (tag : UInt8) (make : UInt16 → UInt16 → Constant) (a b : UInt16),
      Reader.constant tag slot = pair make →
        Reads (u8 >>= fun tag => Reader.constant tag slot) (tag :: be16 a ++ be16 b) (make a b) :=
    fun tag make a b heq => reads_u8_bind tag (heq ▸ reads_bind (reads_u16 a)
      (reads_map (make a) (reads_u16 b)))
  cases c with
  | utf8 bytes =>
    have hlength : (UInt16.ofNat bytes.length).toNat = bytes.length := toNat_ofNat16 (fits bytes rfl)
    have hbytes := reads_map Constant.utf8 (reads_bytes bytes)
    rw [← hlength] at hbytes
    exact reads_u8_bind 1 (reads_bind (reads_u16 _) hbytes)
  | integer value =>
    exact reads_u8_bind 3 (reads_map (fun v : UInt32 => Constant.integer v.toInt32)
      (reads_u32 value.toUInt32))
  | float bits => exact reads_u8_bind 4 (reads_map Constant.float (reads_u32 bits))
  | long value =>
    exact reads_u8_bind 5 (reads_map (fun v : UInt64 => Constant.long v.toInt64)
      (reads_u64 value.toUInt64))
  | double bits => exact reads_u8_bind 6 (reads_map Constant.double (reads_u64 bits))
  | classRef name => exact hword 7 .classRef name rfl
  | string text => exact hword 8 .string text rfl
  | fieldRef owner member => exact hpair 9 .fieldRef owner member rfl
  | methodRef owner member => exact hpair 10 .methodRef owner member rfl
  | interfaceMethodRef owner member => exact hpair 11 .interfaceMethodRef owner member rfl
  | nameAndType name descriptor => exact hpair 12 .nameAndType name descriptor rfl
  | methodHandle kind reference =>
    exact reads_u8_bind 15 (reads_u8_bind kind (reads_map (Constant.methodHandle kind)
      (reads_u16 reference)))
  | methodType descriptor => exact hword 16 .methodType descriptor rfl
  | dynamic bootstrap member => exact hpair 17 .dynamic bootstrap member rfl
  | invokeDynamic bootstrap member => exact hpair 18 .invokeDynamic bootstrap member rfl
  | moduleRef name => exact hword 19 .moduleRef name rfl
  | packageRef name => exact hword 20 .packageRef name rfl

theorem size_pushAll_le (p : ConstantPool) (cs : List Constant) :
    p.size ≤ (p.pushAll cs).size := by
  induction cs generalizing p with
  | nil => exact Nat.le_refl _
  | cons c rest ih =>
    rw [pushAll_cons]
    have hsize := p.size_push c
    have hrest := ih (p.push c)
    omega

/-- Constants are read one after another until the pool has its size. -/
theorem reads_constants {cs : List Constant} {p : ConstantPool} (fits : ∀ c ∈ cs, c.TextFits) :
    Reads (Reader.constants (p.pushAll cs).size p) (cs.flatMap Constant.bytes) (p.pushAll cs) := by
  induction cs generalizing p with
  | nil =>
    rw [Reader.constants, if_neg (show ¬ p.size < (p.pushAll []).size from Nat.lt_irrefl p.size)]
    exact reads_pure p
  | cons c rest ih =>
    have hmore : p.size < ((p.push c).pushAll rest).size := by
      have hsize := p.size_push c
      have hwidth := c.width_pos
      have hgrown := size_pushAll_le (p.push c) rest
      omega
    rw [pushAll_cons, Reader.constants, if_pos hmore, List.flatMap_cons]
    have hconstant := reads_constant (fits c List.mem_cons_self) p.size
    have hrest := ih (p := p.push c) fun d hd => fits d (List.mem_cons_of_mem c hd)
    have hread : Reads (u8 >>= fun tag => Reader.constant tag p.size >>= fun d =>
        Reader.constants ((p.push c).pushAll rest).size (p.push d))
        (c.bytes ++ rest.flatMap Constant.bytes) ((p.push c).pushAll rest) := by
      rw [← bind_assoc]
      exact reads_bind hconstant hrest
    exact hread

/-- **A well-formed pool is read back as it was written.** -/
theorem reads_pool {p : ConstantPool} (wf : p.WellFormed) : Reads Reader.pool p.bytes p := by
  obtain ⟨heq, fits⟩ := wf.eq_pushAll
  have hsize : (UInt16.ofNat p.size).toNat = p.size := toNat_ofNat16 wf.size_le
  have hread := reads_constants (p := .empty) fits
  rw [← heq] at hread
  have hchecked : Reads (do
      let q ← Reader.constants p.size .empty
      if q.size = p.size then return q else fail .slotCountMismatch)
      (p.constants.flatMap Constant.bytes ++ []) p :=
    reads_bind hread (by rw [if_pos rfl]; exact reads_pure p)
  rw [List.append_nil] at hchecked
  unfold ConstantPool.bytes
  refine reads_u16_bind _ ?_
  rw [hsize]
  exact hchecked

/-! ## 4. Pools that were read are written back -/

/-- A constant is written as the bytes it was read from. -/
theorem takes_constant (tag : UInt8) (slot : Nat) :
    Takes (Reader.constant tag slot) fun c bytes => c.bytes = tag :: bytes := by
  have hpair : ∀ (tag : UInt8) (make : UInt16 → UInt16 → Constant),
      (∀ a b, (make a b).bytes = tag :: be16 a ++ be16 b) →
        Takes (pair make) fun c bytes => c.bytes = tag :: bytes :=
    fun tag make hmake => takes_bind takes_u16 fun a _ ha => takes_map (make a) takes_u16
      fun b _ hb => by rw [hmake, ha, hb]; rfl
  unfold Reader.constant
  split
  · refine takes_bind takes_u16 fun length x hx => takes_map Constant.utf8 (takes_bytes _)
      fun b y ⟨hy, hlength⟩ => ?_
    rw [hx, hy, Constant.bytes, hlength, UInt16.ofNat_toNat]
    rfl
  all_goals first
    | exact takes_map _ takes_u16 fun _ _ h => congrArg _ h.symm
    | exact takes_map _ takes_u32 fun _ _ h => congrArg _ h.symm
    | exact takes_map _ takes_u64 fun _ _ h => congrArg _ h.symm
    | exact hpair _ _ fun _ _ => rfl
    | exact takes_bind takes_u8 fun _ _ hkind => takes_map _ takes_u16 fun _ _ h => by
        rw [hkind, h]; rfl
    | exact takes_fail _

theorem constants_pushAll (p : ConstantPool) (cs : List Constant) :
    (p.pushAll cs).constants = p.constants ++ cs := by
  induction cs generalizing p with
  | nil => exact (List.append_nil _).symm
  | cons c rest ih =>
    rw [pushAll_cons, ih, constants_push, List.append_assoc]
    rfl

/-- Constants are added to a pool as they were read. -/
theorem takes_constants (count : Nat) (p : ConstantPool) :
    Takes (Reader.constants count p) fun q bytes =>
      ∃ cs, q = p.pushAll cs ∧ bytes = cs.flatMap Constant.bytes := by
  induction hn : count - p.size using Nat.strong_induction_on generalizing p with
  | _ n ih =>
    rw [Reader.constants]
    split
    · refine takes_bind takes_u8 fun tag x hx => takes_bind (takes_constant tag p.size)
        fun c y hy => ?_
      have hsize := p.size_push c
      have hwidth := c.width_pos
      refine (ih (count - (p.push c).size) (by omega) (p.push c) rfl).imp fun q z hq => ?_
      obtain ⟨cs, rfl, rfl⟩ := hq
      refine ⟨c :: cs, rfl, ?_⟩
      rw [List.flatMap_cons, hx, hy, ← List.append_assoc]
      rfl
    · exact takes_pure ⟨[], rfl, rfl⟩

/-- **A pool is written as the bytes it was read from.** -/
theorem takes_pool : Takes Reader.pool fun p bytes => bytes = p.bytes := by
  refine takes_bind takes_u16 fun count x hx => takes_bind (takes_constants _ .empty)
    fun q y hq => ?_
  obtain ⟨cs, rfl, rfl⟩ := hq
  split
  · rename_i hsize
    refine takes_pure ?_
    have hconstants : (ConstantPool.empty.pushAll cs).constants = cs := constants_pushAll .empty cs
    rw [hx, ConstantPool.bytes, hsize, hconstants, UInt16.ofNat_toNat, List.append_nil]
  · exact takes_fail _

end Rewire
