import Mathlib
import Rewire.Log

/-!
# Steps that succeed

What it means for a step made of smaller ones to succeed: each of them does. This file fixes, for
plain outcomes, for steps on a constant pool (`PoolStep`), for steps with a log (`Logged`) and for
steps with both (`Assembly`),

* the equation of a bind that succeeds (`bind_eq_ok` in each namespace);
* what the small constructions (`fail`, `during`, `orFail`, lifting) give;
* the runs of lists: a list of outcomes succeeds elementwise (`mapM_eq_ok`), and elements that are
  related pairwise are found at the same positions (`getElem?_of_forall₂`, `forall₂_split`).
-/

namespace Rewire

variable {α β : Type}

/-! ## 1. Outcomes -/

theorem bind_eq_ok {x : Outcome α} {f : α → Outcome β} {b : β} :
    x >>= f = .ok b ↔ ∃ a, x = .ok a ∧ f a = .ok b := by
  cases x with
  | error e =>
    constructor
    · intro h
      cases h
    · rintro ⟨a, h, -⟩
      cases h
  | ok a =>
    constructor
    · intro h
      exact ⟨a, rfl, h⟩
    · rintro ⟨a', h, hf⟩
      cases h
      exact hf

/-- Two binds agree if what follows a value does. -/
theorem bind_congr_of_ok {x : Outcome α} {f g : α → Outcome β}
    (h : ∀ a, x = .ok a → f a = g a) : x >>= f = x >>= g := by
  cases x with
  | error e => rfl
  | ok a => exact h a rfl

/-- A bind fails where one of its steps does. -/
theorem bind_eq_error {x : Outcome α} {f : α → Outcome β} {e : Failure} :
    x >>= f = .error e ↔ x = .error e ∨ ∃ a, x = .ok a ∧ f a = .error e := by
  cases x with
  | error e' =>
    constructor
    · intro h
      cases h
      exact .inl rfl
    · rintro (h | ⟨a, h, -⟩)
      · cases h
        rfl
      · cases h
  | ok a =>
    constructor
    · exact fun h => .inr ⟨a, rfl, h⟩
    · rintro (h | ⟨a', h, hf⟩)
      · cases h
      · cases h
        exact hf

/-- A step fails exactly if it has no result. -/
theorem exists_error_iff {x : Outcome α} : (∃ e, x = .error e) ↔ ¬ ∃ a, x = .ok a := by
  cases x with
  | error e => simp
  | ok a => simp

theorem map_eq_ok {x : Outcome α} {f : α → β} {b : β} :
    f <$> x = .ok b ↔ ∃ a, x = .ok a ∧ f a = b := by
  cases x with
  | error e => simp
  | ok a => simp

@[simp] theorem fail_ne_ok (f : Fault) (a : α) : (fail f : Outcome α) ≠ .ok a := by
  intro h
  cases h

@[simp] theorem during_eq_ok {a : Activity} {x : Outcome α} {b : α} :
    during a x = .ok b ↔ x = .ok b := by
  cases x with
  | error e => simp
  | ok c => simp

@[simp] theorem orFail_eq_ok {f : Fault} {x : Option α} {a : α} :
    orFail f x = .ok a ↔ x = some a := by
  cases x with
  | none => simp [orFail]
  | some b => simp [orFail]

theorem pure_eq_ok {a b : α} : (pure a : Outcome α) = .ok b ↔ a = b := by
  constructor
  · intro h
    cases h
    rfl
  · rintro rfl
    rfl

/-- **A list of outcomes succeeds exactly elementwise.** -/
theorem mapM_eq_ok {f : α → Outcome β} {l : List α} {bs : List β} :
    l.mapM f = .ok bs ↔ List.Forall₂ (fun a b => f a = .ok b) l bs := by
  induction l generalizing bs with
  | nil =>
    rw [List.mapM_nil, pure_eq_ok, List.forall₂_nil_left_iff, eq_comm]
  | cons a rest ih =>
    simp only [List.mapM_cons, bind_eq_ok, pure_eq_ok, List.forall₂_cons_left_iff, ih]
    constructor
    · rintro ⟨b, hb, bs', hbs, rfl⟩
      exact ⟨b, bs', hb, hbs, rfl⟩
    · rintro ⟨b, bs', hb, hbs, rfl⟩
      exact ⟨b, hb, bs', hbs, rfl⟩

/-- A loop that puts what it finds in front of what it found before runs through a list. -/
theorem loop_eq_mapM {f : Nat → Outcome α} {loop : List α → Nat → Nat → Outcome (List α)}
    {step : Nat} (stop : ∀ done i, loop done i 0 = .ok done.reverse)
    (next : ∀ done i n, loop done i (n + 1) = f i >>= fun a => loop (a :: done) (i + step) n)
    (done : List α) (i n : Nat) :
    loop done i n = (List.range' i n step).mapM f >>= fun as => .ok (done.reverse ++ as) := by
  induction n generalizing done i with
  | zero =>
    rw [stop]
    exact congrArg Except.ok (List.append_nil _).symm
  | succ n ih =>
    rw [next, List.range'_succ, List.mapM_cons, bind_assoc]
    refine bind_congr_of_ok fun a _ => ?_
    rw [ih, bind_assoc]
    refine bind_congr_of_ok fun as _ => ?_
    show Except.ok ((a :: done).reverse ++ as) = .ok (done.reverse ++ a :: as)
    rw [List.reverse_cons, List.append_assoc]
    rfl

theorem mapM_of_forall {f : α → Outcome β} {g : α → β} {l : List α}
    (h : ∀ a ∈ l, f a = .ok (g a)) : l.mapM f = .ok (l.map g) := by
  rw [mapM_eq_ok, List.forall₂_map_right_iff, List.forall₂_same]
  exact h

/-- A list of outcomes fails over one of its elements. -/
theorem exists_of_mapM_error {f : α → Outcome β} {l : List α} {e : Failure}
    (h : l.mapM f = .error e) : ∃ a ∈ l, f a = .error e := by
  induction l with
  | nil => cases h
  | cons a rest ih =>
    rw [List.mapM_cons] at h
    rcases bind_eq_error.1 h with h | ⟨b, -, h⟩
    · exact ⟨a, List.mem_cons_self, h⟩
    rcases bind_eq_error.1 h with h | ⟨bs, -, h⟩
    · obtain ⟨a', ha', h⟩ := ih h
      exact ⟨a', List.mem_cons_of_mem _ ha', h⟩
    · cases h

/-- Elements that are related pairwise have partners. -/
theorem exists_left_of_forall₂ {R : α → β → Prop} {l : List α} {bs : List β}
    (h : List.Forall₂ R l bs) {b : β} (hb : b ∈ bs) : ∃ a ∈ l, R a b := by
  induction h with
  | nil => cases hb
  | cons hab _ ih =>
    rcases List.mem_cons.1 hb with rfl | hb
    · exact ⟨_, List.mem_cons_self, hab⟩
    · obtain ⟨a, ha, hr⟩ := ih hb
      exact ⟨a, List.mem_cons_of_mem _ ha, hr⟩

/-- Elements that are related stand at the same positions. -/
theorem getElem?_of_forall₂ {R : α → β → Prop} {as : List α} {bs : List β} {k : Nat}
    {a : α} (h : List.Forall₂ R as bs) (ha : as[k]? = some a) : ∃ b, bs[k]? = some b ∧ R a b := by
  induction h generalizing k with
  | nil => cases ha
  | @cons first b _ _ hfirst _ ih =>
    cases k with
    | zero =>
      cases ha
      exact ⟨b, rfl, hfirst⟩
    | succ k => exact ih ha

/-- Lists that are related pairwise are cut where one element stands. -/
theorem forall₂_split {R : α → β → Prop} {before after : List α} {a : α} {bs : List β}
    (h : List.Forall₂ R (before ++ a :: after) bs) :
    ∃ bs₁ b bs₂, bs = bs₁ ++ b :: bs₂ ∧ List.Forall₂ R before bs₁ ∧ R a b ∧
      List.Forall₂ R after bs₂ := by
  induction before generalizing bs with
  | nil =>
    obtain ⟨b, bs₂, hab, hafter, rfl⟩ := List.forall₂_cons_left_iff.1 h
    exact ⟨[], b, bs₂, rfl, .nil, hab, hafter⟩
  | cons first before ih =>
    obtain ⟨b, rest, hfirst, hrest, rfl⟩ := List.forall₂_cons_left_iff.1 h
    obtain ⟨bs₁, b', bs₂, rfl, hbefore, hab, hafter⟩ := ih hrest
    exact ⟨b :: bs₁, b', bs₂, rfl, .cons hfirst hbefore, hab, hafter⟩

/-- Relations between lists compose elementwise. -/
theorem forall₂_comp {γ : Type} {R : α → β → Prop} {S : β → γ → Prop} {T : α → γ → Prop}
    {as : List α} {bs : List β} {cs : List γ} (h : List.Forall₂ R as bs)
    (h' : List.Forall₂ S bs cs) (comp : ∀ a b c, R a b → S b c → T a c) :
    List.Forall₂ T as cs := by
  induction h generalizing cs with
  | nil =>
    cases h'
    exact .nil
  | cons hab _ ih =>
    cases h' with
    | cons hbc hrest => exact .cons (comp _ _ _ hab hbc) (ih hrest)

/-- Elements that each have a partner are related to a list of partners. -/
theorem exists_forall₂ {R : α → β → Prop} {l : List α} (h : ∀ a ∈ l, ∃ b, R a b) :
    ∃ bs, List.Forall₂ R l bs := by
  induction l with
  | nil => exact ⟨[], .nil⟩
  | cons a rest ih =>
    obtain ⟨b, hb⟩ := h a List.mem_cons_self
    obtain ⟨bs, hrest⟩ := ih fun a' ha' => h a' (List.mem_cons_of_mem a ha')
    exact ⟨b :: bs, .cons hb hrest⟩

/-- A list of outcomes succeeds with results that each of them may have. -/
theorem exists_mapM {f : α → Outcome β} {R : α → β → Prop} {l : List α}
    (h : ∀ a ∈ l, ∃ b, f a = .ok b ∧ R a b) : ∃ bs, l.mapM f = .ok bs ∧ List.Forall₂ R l bs := by
  obtain ⟨bs, hbs⟩ := exists_forall₂ h
  exact ⟨bs, mapM_eq_ok.2 (hbs.imp fun _ _ hb => hb.1), hbs.imp fun _ _ hb => hb.2⟩

/-! ## 2. Steps with a state

A step on a pool has the pool as its state, a step with a log the log. -/

namespace Step

variable {σ : Type} {x : ExceptT Failure (StateM σ) α} {f : α → ExceptT Failure (StateM σ) β}
  {s s' : σ} {b : β}

theorem bind_eq_ok :
    (x >>= f) s = (.ok b, s') ↔ ∃ a t, x s = (.ok a, t) ∧ f a t = (.ok b, s') := by
  simp only [bind, ExceptT.bind, ExceptT.mk, StateT.bind, ExceptT.bindCont]
  rcases x s with ⟨e | a, t⟩
  · constructor
    · intro h
      cases h
    · rintro ⟨a, t', h, -⟩
      cases h
  · constructor
    · intro h
      exact ⟨a, t, rfl, h⟩
    · rintro ⟨a', t', h, hf⟩
      cases h
      exact hf

theorem pure_eq_ok {a a' : α} :
    (pure a : ExceptT Failure (StateM σ) α) s = (.ok a', s') ↔ a = a' ∧ s = s' := by
  show ((Except.ok a, s) : Outcome α × σ) = _ ↔ _
  simp

theorem lift_eq_ok {x : Outcome α} {a : α} :
    (liftM x : ExceptT Failure (StateM σ) α) s = (.ok a, s') ↔ x = .ok a ∧ s = s' := by
  cases x with
  | error e =>
    show ((Except.error e, s) : Outcome α × σ) = _ ↔ _
    simp
  | ok b =>
    show ((Except.ok b, s) : Outcome α × σ) = _ ↔ _
    simp

theorem during_eq_ok {a : Activity} {c : α} :
    (during a x) s = (.ok c, s') ↔ x s = (.ok c, s') := by
  simp only [during, tryCatchThe, MonadExceptOf.tryCatch, ExceptT.tryCatch, ExceptT.mk, bind,
    StateT.bind]
  rcases x s with ⟨e | c', t⟩
  · constructor
    · intro h
      cases h
    · intro h
      cases h
  · exact Iff.rfl

/-- An activity is part of a failure, not of the state. -/
theorem run_during {a : Activity} : (during a x) s = (during a (x s).1, (x s).2) := by
  simp only [during, tryCatchThe, MonadExceptOf.tryCatch, ExceptT.tryCatch, ExceptT.mk, bind,
    StateT.bind]
  rcases x s with ⟨e | b, t⟩ <;> rfl

@[simp] theorem fail_ne_ok (f : Fault) (a : α) :
    (fail f : ExceptT Failure (StateM σ) α) s ≠ (.ok a, s') := by
  intro h
  cases h

/-- Going through a list takes a step for each element. -/
theorem forall₂_of_mapM {l : List α} {bs : List β} (h : l.mapM f s = (.ok bs, s')) :
    List.Forall₂ (fun a b => ∃ t t', f a t = (.ok b, t')) l bs := by
  induction l generalizing s bs with
  | nil =>
    obtain ⟨rfl, -⟩ := pure_eq_ok.1 h
    exact .nil
  | cons a rest ih =>
    rw [List.mapM_cons] at h
    obtain ⟨b, t, hb, h⟩ := bind_eq_ok.1 h
    obtain ⟨more, t', hmore, h⟩ := bind_eq_ok.1 h
    obtain ⟨rfl, rfl⟩ := pure_eq_ok.1 h
    exact .cons ⟨s, t, hb⟩ (ih hmore)

/-- Going through a list does not change the state if no element does. -/
theorem mapM_of_unchanged {l : List α} {bs : List β}
    (h : List.Forall₂ (fun a b => f a s = (.ok b, s)) l bs) : l.mapM f s = (.ok bs, s) := by
  induction h with
  | nil => rfl
  | cons hb _ ih =>
    rw [List.mapM_cons]
    exact bind_eq_ok.2 ⟨_, s, hb, bind_eq_ok.2 ⟨_, s, ih, rfl⟩⟩

end Step

/-! ## 3. Steps with a pool and a log -/

namespace Assembly

variable {x : Assembly α} {f : α → Assembly β} {p p' : ConstantPool} {log log' : Log} {b : β}

theorem bind_eq_ok :
    (x >>= f) p log = ((.ok b, p'), log') ↔
      ∃ a q l, x p log = ((.ok a, q), l) ∧ f a q l = ((.ok b, p'), log') := by
  simp only [bind, ExceptT.bind, ExceptT.mk, StateT.bind, ExceptT.bindCont]
  rcases x p log with ⟨⟨e | a, q⟩, l⟩
  · constructor
    · intro h
      cases h
    · rintro ⟨a, q', l', h, -⟩
      cases h
  · constructor
    · intro h
      exact ⟨a, q, l, rfl, h⟩
    · rintro ⟨a', q', l', h, hf⟩
      cases h
      exact hf

theorem pure_eq_ok {a a' : α} :
    (pure a : Assembly α) p log = ((.ok a', p'), log') ↔ a = a' ∧ p = p' ∧ log = log' := by
  show (((Except.ok a, p), log) : (Outcome α × ConstantPool) × Log) = _ ↔ _
  simp [and_assoc]

theorem lift_eq_ok {x : Outcome α} {a : α} :
    (liftM x : Assembly α) p log = ((.ok a, p'), log') ↔ x = .ok a ∧ p = p' ∧ log = log' := by
  cases x with
  | error e =>
    show (((Except.error e, p), log) : (Outcome α × ConstantPool) × Log) = _ ↔ _
    simp
  | ok b =>
    show (((Except.ok b, p), log) : (Outcome α × ConstantPool) × Log) = _ ↔ _
    simp [and_assoc]

theorem liftStep_eq_ok {x : ConstantPool.PoolStep α} {a : α} :
    (liftM x : Assembly α) p log = ((.ok a, p'), log') ↔ x p = (.ok a, p') ∧ log = log' := by
  show ((x p, log) : (Outcome α × ConstantPool) × Log) = _ ↔ _
  rw [Prod.mk.injEq]

theorem during_eq_ok {a : Activity} {c : α} :
    (during a x) p log = ((.ok c, p'), log') ↔ x p log = ((.ok c, p'), log') := by
  simp only [during, tryCatchThe, MonadExceptOf.tryCatch, ExceptT.tryCatch, ExceptT.mk, bind,
    StateT.bind]
  rcases x p log with ⟨⟨e | c', q⟩, l⟩
  · constructor
    · intro h
      cases h
    · intro h
      cases h
  · exact Iff.rfl

theorem note_eq_ok {n : Notice} {u : Unit} :
    Assembly.note n p log = ((.ok u, p'), log') ↔ p = p' ∧ log.push n = log' := by
  show (((Except.ok (), p), log.push n) : (Outcome Unit × ConstantPool) × Log) = _ ↔ _
  simp

@[simp] theorem fail_ne_ok (f : Fault) (a : α) :
    (fail f : Assembly α) p log ≠ ((.ok a, p'), log') := by
  intro h
  cases h

end Assembly

end Rewire
