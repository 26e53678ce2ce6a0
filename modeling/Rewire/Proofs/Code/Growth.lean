import Mathlib
import Rewire.Code.Decode
import Rewire.Proofs.Bytes.Reads
import Rewire.Proofs.Code.Formats
import Rewire.Proofs.Code.Operands

/-!
# Decoding with a grown pool

What a slot denotes is not changed by constants that are added to a pool, so code that was decoded
is decoded as the same method with the grown pool. This file fixes

* outcomes that are at least as good as others (`Agrees`), which follow the structure of steps
  (`agrees_bind`, …);
* that decoding with a grown pool is one (`ConstantPool.GrowsTo.decodeMethod`).
-/

namespace Rewire

/-! ## 1. Outcomes that agree -/

/-- Whether the second outcome is the first one wherever that succeeds. -/
def Agrees {α : Type} (x y : Outcome α) : Prop :=
  ∀ a, x = .ok a → y = .ok a

section Outcomes

variable {α β : Type} {x y : Outcome α} {f g : α → Outcome β}

theorem agrees_refl (x : Outcome α) : Agrees x x :=
  fun _ h => h

theorem agrees_bind (h : Agrees x y) (hf : ∀ a, Agrees (f a) (g a)) :
    Agrees (x >>= f) (y >>= g) := by
  intro b hb
  obtain ⟨a, ha, hb⟩ := bind_eq_ok.1 hb
  exact bind_eq_ok.2 ⟨a, h a ha, hf a b hb⟩

theorem agrees_during (activity : Activity) (h : Agrees x y) :
    Agrees (during activity x) (during activity y) :=
  fun a ha => during_eq_ok.2 (h a (during_eq_ok.1 ha))

theorem agrees_mapM (h : ∀ a, Agrees (f a) (g a)) (l : List α) :
    Agrees (l.mapM f) (l.mapM g) :=
  fun _ hbs => mapM_eq_ok.2 ((mapM_eq_ok.1 hbs).imp fun a b => h a b)

end Outcomes

/-- Whether readers agree wherever they are run. -/
def Reader.Agrees {α : Type} (r s : Reader α) : Prop :=
  ∀ c, Rewire.Agrees (r c) (s c)

namespace Reader

variable {α β σ : Type} {r s : Reader α} {f g : α → Reader β}

theorem agrees_refl (r : Reader α) : Agrees r r :=
  fun _ _ h => h

theorem agrees_bind (h : Agrees r s) (hf : ∀ a, Agrees (f a) (g a)) :
    Agrees (r >>= f) (s >>= g) := by
  intro c ⟨b, c'⟩ hb
  obtain ⟨a, d, ha, hb⟩ := Reader.bind_eq_ok.1 hb
  exact Reader.bind_eq_ok.2 ⟨a, d, h c (a, d) ha, hf a d (b, c') hb⟩

theorem agrees_repeated {step next : σ → Reader σ} (h : ∀ t, Agrees (step t) (next t)) (n : Nat)
    (t : σ) : Agrees (repeated n step t) (repeated n next t) := by
  induction n with
  | zero => exact agrees_refl _
  | succ n ih =>
    rw [repeated_succ, repeated_succ]
    exact agrees_bind ih h

end Reader

/-! ## 2. Decoding -/

namespace ConstantPool.GrowsTo

variable {p q : ConstantPool}

theorem readAttribute (h : p.GrowsTo q) (parts : CodeParts) :
    Reader.Agrees (parts.readAttribute p) (parts.readAttribute q) := by
  refine Reader.agrees_bind (Reader.agrees_refl _) fun a => ?_
  refine Reader.agrees_bind (fun c ⟨name, c'⟩ hname => ?_) fun name => Reader.agrees_refl _
  have hname : during .resolvingAttributeName ((liftM (p.text a.name) : Reader String) c) =
    .ok (name, c') := hname
  obtain ⟨htext, rfl⟩ := Reader.lift_eq_ok.1 (during_eq_ok.1 hname)
  have hgrown : (liftM (q.text a.name) : Reader String) c = .ok (name, c) :=
    Reader.lift_eq_ok.2 ⟨h.text htext, rfl⟩
  exact during_eq_ok.2 hgrown

theorem readParts (h : p.GrowsTo q) (body : Bytes) :
    Agrees (CodeParts.read p body) (CodeParts.read q body) := by
  have hreader : Reader.Agrees (CodeParts.reader p) (CodeParts.reader q) :=
    Reader.agrees_bind (Reader.agrees_refl _) fun maxStack =>
      Reader.agrees_bind (Reader.agrees_refl _) fun maxLocals =>
      Reader.agrees_bind (Reader.agrees_refl _) fun length =>
      Reader.agrees_bind (Reader.agrees_refl _) fun code =>
      Reader.agrees_bind (Reader.agrees_refl _) fun handlers =>
      Reader.agrees_bind (Reader.agrees_refl _) fun attributes =>
      Reader.agrees_repeated h.readAttribute _ _
  exact agrees_bind (hreader _) fun _ => agrees_refl _

theorem decodeInsn (h : p.GrowsTo q) (code : Array UInt8) (labels : LabelTable) (offset : Nat) :
    Agrees (decodeInsn code p labels offset) (decodeInsn code q labels offset) := by
  rw [decodeInsn_eq, decodeInsn_eq]
  refine agrees_bind (agrees_refl _) fun op => agrees_bind (agrees_refl _) fun format => ?_
  cases format with
  | ldc =>
    exact agrees_bind (agrees_refl _) fun index =>
      agrees_bind (fun _ => h.loadable) fun value => agrees_refl _
  | ldcWide wide =>
    exact agrees_bind (agrees_refl _) fun index =>
      agrees_bind (fun _ => h.loadable) fun value => agrees_refl _
  | field =>
    exact agrees_bind (agrees_refl _) fun index =>
      agrees_bind (agrees_during _ fun _ => h.memberRef) fun m => agrees_refl _
  | call kind =>
    exact agrees_bind (agrees_refl _) fun index =>
      agrees_bind (agrees_during _ fun _ => h.memberRef) fun m => agrees_refl _
  | invokeDynamic => exact agrees_bind (agrees_refl _) fun index _ => h.computedCall
  | type =>
    exact agrees_bind (agrees_refl _) fun index =>
      agrees_bind (agrees_during _ fun _ => h.className) fun name => agrees_refl _
  | multiANewArray =>
    exact agrees_bind (agrees_refl _) fun index =>
      agrees_bind (agrees_during _ fun _ => h.className) fun name => agrees_refl _
  | _ => exact agrees_refl _

theorem decodeHandler (h : p.GrowsTo q) (labels : LabelTable) (raw : RawHandler) :
    Agrees (decodeHandler p labels raw) (decodeHandler q labels raw) := by
  unfold Rewire.decodeHandler
  split
  · exact agrees_refl _
  · refine agrees_bind (fun name hname => ?_) fun _ => agrees_refl _
    obtain ⟨s, hs, rfl⟩ := map_eq_ok.1 hname
    exact map_eq_ok.2 ⟨s, agrees_during _ (fun _ => h.className) s hs, rfl⟩

theorem decodeLocal (h : p.GrowsTo q) (labels : LabelTable) (raw : RawLocal) :
    Agrees (decodeLocal p labels raw) (decodeLocal q labels raw) :=
  agrees_bind (agrees_during _ fun _ => h.text) fun _ =>
    agrees_bind (agrees_during _ fun _ => h.text) fun _ => agrees_refl _

/-- **Decoding with a grown pool** gives the same method. -/
theorem decodeMethod (h : p.GrowsTo q) (blank : Method) (body : Bytes) :
    Agrees (decodeMethod p blank body) (decodeMethod q blank body) :=
  agrees_bind (h.readParts body) fun parts => agrees_bind (agrees_refl _) fun _ =>
    agrees_bind (agrees_refl _) fun _ =>
    agrees_bind (agrees_mapM (fun offset => agrees_bind
      (agrees_during _ (h.decodeInsn parts.code _ offset)) fun _ => agrees_refl _) _) fun _ =>
    agrees_bind (agrees_mapM (h.decodeHandler _) _) fun _ =>
    agrees_bind (agrees_mapM (h.decodeLocal _) _) fun _ =>
    agrees_bind (agrees_mapM (h.decodeLocal _) _) fun _ => agrees_refl _

end ConstantPool.GrowsTo

end Rewire
