import Mathlib
import Rewire.Proofs.Code.Decoding
import Rewire.Proofs.Frames.Relocate
import Rewire.Proofs.Pool.Intern

/-!
# Tables and attributes that are written

The tables of a method are written for the places of its labels, and attributes of the code it was
read from are carried over. This file fixes

* steps with a log that succeed, with what they find in the grown pool (`Assembly.Finds`);
* the entries of the tables, which denote what the method says by offset (`finds_encodeHandlers`,
  `finds_localsAttribute`);
* attributes whose names are in the pool (`RawAttribute.IsNamed`), and what sorting such tables in
  gives (`foldlM_take_table`);
* the attributes that are carried over (`carriedAttribute`, `finds_carryAttributes`), and the offsets
  their frames mention (`place_of_carriedFrame`).
-/

namespace Rewire

open ConstantPool

/-! ## 1. Steps with a log -/

namespace Assembly

/-- Whether a step that succeeds keeps pools well-formed and grows them, and gives what holds of the
    grown pool. -/
def Finds {α : Type} (x : Assembly α) (post : ConstantPool → α → Prop) : Prop :=
  ∀ p log a q log', p.WellFormed → x p log = ((.ok a, q), log') →
    q.WellFormed ∧ p.GrowsTo q ∧ post q a

section Steps

variable {α β : Type} {x : Assembly α} {f : α → Assembly β}
  {P : ConstantPool → α → Prop} {Q : α → ConstantPool → β → Prop}

theorem finds_pure (a : α) : Finds (pure a) fun _ b => b = a := by
  intro p log b q log' wf h
  obtain ⟨rfl, rfl, -⟩ := pure_eq_ok.1 h
  exact ⟨wf, .refl p, rfl⟩

theorem finds_liftStep {x : PoolStep α} (hx : ConstantPool.Finds x P) :
    Finds (liftM x : Assembly α) P := by
  intro p log a q log' wf h
  obtain ⟨h, -⟩ := liftStep_eq_ok.1 h
  exact hx.of_ok wf h

theorem finds_note (n : Notice) : Finds (note n) fun _ _ => True := by
  intro p log a q log' wf h
  obtain ⟨rfl, -⟩ := note_eq_ok.1 h
  exact ⟨wf, .refl p, trivial⟩

theorem Finds.weaken {post : ConstantPool → α → Prop} (h : Finds x P)
    (hpost : ∀ q a, P q a → post q a) : Finds x post := by
  intro p log a q log' wf hx
  obtain ⟨hwf, hgrow, ha⟩ := h p log a q log' wf hx
  exact ⟨hwf, hgrow, hpost q a ha⟩

/-- Steps one after another: what the first one found still holds at the end. -/
theorem finds_bind (hx : Finds x P) (lasting : ∀ a, Lasting fun p => P p a)
    (hf : ∀ a, Finds (f a) (Q a)) : Finds (x >>= f) fun q b => ∃ a, P q a ∧ Q a q b := by
  intro p log b q log' wf h
  obtain ⟨a, s, middle, hxp, h⟩ := bind_eq_ok.1 h
  obtain ⟨hwf, hgrow, ha⟩ := hx p log a s middle wf hxp
  obtain ⟨hwf', hgrow', hb⟩ := hf a s middle b q log' hwf h
  exact ⟨hwf', hgrow.trans hgrow', a, lasting a s q hgrow' ha, hb⟩

end Steps

end Assembly

/-! ## 2. Exception regions -/

/-- The label that stands for the offset of a label. -/
def Layout.byOffset (l : Layout) (label : Label) : Label :=
  ⟨l.offsetOf label⟩

theorem RawHandler.Denotes.growsTo {p q : ConstantPool} {raw : RawHandler} {h : Handler}
    (hgrow : p.GrowsTo q) (denotes : raw.Denotes p h) : raw.Denotes q h := by
  obtain ⟨hstart, hstop, hhandler, hcatch⟩ := denotes
  refine ⟨hstart, hstop, hhandler, ?_⟩
  rcases hcatch with hnone | ⟨hne, name, hsome, hname⟩
  · exact .inl hnone
  · exact .inr ⟨hne, name, hsome, hgrow.className hname⟩

/-- What is written for an exception region: nothing if it is empty, else an entry for it. -/
def Handler.WrittenAs (l : Layout) (pool : ConstantPool) (h : Handler) : Option Bytes → Prop
  | none => l.offsetOf h.stop ≤ l.offsetOf h.start
  | some bytes => l.offsetOf h.start < l.offsetOf h.stop ∧
      ∃ raw : RawHandler, bytes = raw.bytes ∧ raw.Denotes pool (h.mapLabels l.byOffset)

/-- Whether a slot is that of the class a region catches, or 0 if it catches everything. -/
def IsCatchType (catchType : Option String) (pool : ConstantPool) (i : UInt16) : Prop :=
  i = 0 ∧ catchType = none ∨
    i ≠ 0 ∧ ∃ name, catchType = some name ∧ pool.className i = .ok name

theorem lasting_isCatchType (catchType : Option String) (i : UInt16) :
    Lasting fun pool => IsCatchType catchType pool i := by
  intro p q hgrow h
  rcases h with h | ⟨hne, name, hsome, hname⟩
  · exact .inl h
  · exact .inr ⟨hne, name, hsome, hgrow.className hname⟩

theorem finds_catchType (name : String) :
    Finds (internClass name) (IsCatchType (some name)) := by
  intro p r q wf h
  obtain ⟨hwf, hgrow, hi⟩ := finds_internClass name p r q wf h
  refine ⟨hwf, hgrow, fun i hr => ?_⟩
  obtain ⟨n, hn, hfirst⟩ := hi i hr
  exact .inr ⟨hwf.ne_zero hfirst.get, name, rfl, HoldsClass.className ⟨n, hn, hfirst⟩⟩

/-- The entry of a region that catches the class in a slot. -/
def Layout.rawHandler (l : Layout) (h : Handler) (catchType : UInt16) : RawHandler :=
  { start := l.offsetOf h.start, stop := l.offsetOf h.stop, handler := l.offsetOf h.handler,
    catchType }

theorem finds_encodeHandler (m : Method) (l : Layout) (h : Handler) :
    Assembly.Finds (encodeHandler m l h) fun q e => h.WrittenAs l q e := by
  unfold encodeHandler
  split
  · rename_i hle
    have hnote := Assembly.finds_bind (Assembly.finds_note (.emptyHandlerDropped m.name m.descriptor))
      (fun _ _ _ _ h => h) fun _ => Assembly.finds_pure (none : Option Bytes)
    refine hnote.weaken fun q e ⟨_, _, he⟩ => ?_
    rw [he]
    exact hle
  · rename_i hlt
    have hentry : ∀ {x : Assembly UInt16}, Assembly.Finds x (IsCatchType h.catchType) →
        Assembly.Finds (x >>= fun i => pure (some (l.rawHandler h i).bytes))
          fun q e => h.WrittenAs l q e := by
      intro x hx
      have hbind := Assembly.finds_bind hx (lasting_isCatchType h.catchType) fun i =>
        Assembly.finds_pure (some (l.rawHandler h i).bytes)
      refine hbind.weaken fun q e ⟨i, hi, he⟩ => ?_
      rw [he]
      exact ⟨Nat.lt_of_not_le hlt, _, rfl, rfl, rfl, rfl, hi⟩
    cases hcatch : h.catchType with
    | none =>
      rw [hcatch] at hentry
      exact hentry ((Assembly.finds_pure 0).weaken fun q i hi => .inl ⟨hi, rfl⟩)
    | some name =>
      rw [hcatch] at hentry
      exact hentry (Assembly.finds_liftStep (finds_catchType name))

/-- The exception regions of a method that are not empty, by offset. -/
def Layout.handlers (l : Layout) (handlers : List Handler) : List Handler :=
  (handlers.filter fun h => l.offsetOf h.start < l.offsetOf h.stop).map
    (Handler.mapLabels l.byOffset)

/-- The entries of exception regions, by the regions that are not empty. -/
def Layout.HasEntries (l : Layout) (handlers : List Handler) (pool : ConstantPool)
    (entries : List Bytes) : Prop :=
  ∃ raws : List RawHandler, entries = raws.map RawHandler.bytes ∧
    List.Forall₂ (RawHandler.Denotes pool) raws (l.handlers handlers)

/-- **The exception table** has an entry for every region that is not empty. -/
theorem finds_encodeHandlers (m : Method) (l : Layout) (handlers : List Handler) :
    Assembly.Finds (handlers.filterMapM (encodeHandler m l)) fun q entries =>
      l.HasEntries handlers q entries := by
  induction handlers with
  | nil =>
    exact (Assembly.finds_pure []).weaken fun q entries h => ⟨[], h, .nil⟩
  | cons h rest ih =>
    intro p log entries q log' wf hrun
    rw [List.filterMapM_cons] at hrun
    obtain ⟨e, p₁, log₁, he, hrun⟩ := Assembly.bind_eq_ok.1 hrun
    obtain ⟨hwf₁, hgrow₁, hwritten⟩ := finds_encodeHandler m l h p log e p₁ log₁ wf he
    cases e with
    | none =>
      obtain ⟨hwf, hgrow, raws, hraws, hdenote⟩ := ih p₁ log₁ entries q log' hwf₁ hrun
      refine ⟨hwf, hgrow₁.trans hgrow, raws, hraws, ?_⟩
      have hempty : ¬ l.offsetOf h.start < l.offsetOf h.stop := Nat.not_lt.2 hwritten
      rwa [Layout.handlers, List.filter_cons_of_neg (by simpa using hempty)]
    | some bytes =>
      obtain ⟨more, p₂, log₂, hmore, hrun⟩ := Assembly.bind_eq_ok.1 hrun
      obtain ⟨rfl, rfl, -⟩ := Assembly.pure_eq_ok.1 hrun
      obtain ⟨hwf, hgrow, raws, hraws, hdenote⟩ := ih p₁ log₁ more p₂ log₂ hwf₁ hmore
      obtain ⟨hlt, raw, hbytes, hraw⟩ := hwritten
      refine ⟨hwf, hgrow₁.trans hgrow, raw :: raws, by rw [hbytes, hraws, List.map_cons], ?_⟩
      rw [Layout.handlers, List.filter_cons_of_pos (by simpa using hlt), List.map_cons]
      exact .cons (hraw.growsTo hgrow) hdenote

/-! ## 3. Attributes -/

/-- Whether an attribute has the name and the body of the given one. -/
structure RawAttribute.IsNamed (pool : ConstantPool) (raw : RawAttribute) (a : String × Bytes) :
    Prop where
  name_eq : pool.text raw.name = .ok a.1
  body_eq : raw.body = a.2

theorem RawAttribute.IsNamed.growsTo {p q : ConstantPool} {raw : RawAttribute} {a : String × Bytes}
    (hgrow : p.GrowsTo q) (h : raw.IsNamed p a) : raw.IsNamed q a :=
  ⟨hgrow.text h.name_eq, h.body_eq⟩

theorem lasting_areNamed (named : List (String × Bytes)) (raws : List RawAttribute) :
    Lasting fun pool => List.Forall₂ (RawAttribute.IsNamed pool) raws named :=
  fun _ _ hgrow h => h.imp fun _ _ ha => ha.growsTo hgrow

theorem finds_namedAttribute (name : String) (body : Bytes) :
    Finds (namedAttribute name body) fun q raw => raw.IsNamed q (name, body) := by
  have h := finds_bind (finds_internText name) (lasting_holdsText name) fun i =>
    finds_pure ({ name := i, body } : RawAttribute)
  refine h.weaken fun q raw ⟨i, hi, hraw⟩ => ?_
  rw [hraw]
  exact ⟨hi.text, rfl⟩

/-- The attribute of a table with its name, if the table has entries. -/
def namedTable (name : String) (entries : List Bytes) : List (String × Bytes) :=
  if entries.isEmpty then [] else [(name, tableBytes entries)]

theorem finds_tableAttribute (name : String) (entries : List Bytes) :
    Finds (tableAttribute name entries) fun q raws =>
      List.Forall₂ (RawAttribute.IsNamed q) raws (namedTable name entries) := by
  unfold tableAttribute namedTable
  split
  · exact (finds_pure []).weaken fun q raws h => h ▸ .nil
  · have h := finds_bind (finds_namedAttribute name (tableBytes entries))
      (fun raw p q hgrow hraw => hraw.growsTo hgrow) fun raw => finds_pure [raw]
    refine h.weaken fun q raws ⟨raw, hraw, hraws⟩ => ?_
    rw [hraws]
    exact .cons hraw .nil

theorem RawLocal.Denotes.growsTo {p q : ConstantPool} {raw : RawLocal} {r : LocalRecord}
    (hgrow : p.GrowsTo q) (denotes : raw.Denotes p r) : raw.Denotes q r :=
  { denotes with
    name := hgrow.text denotes.name
    descriptor := hgrow.text denotes.descriptor }

/-- What is written for a local variable record. -/
def LocalRecord.WrittenAs (l : Layout) (pool : ConstantPool) (r : LocalRecord) (bytes : Bytes) :
    Prop :=
  ∃ raw : RawLocal, bytes = raw.bytes ∧ raw.Denotes pool (r.mapLabels l.byOffset)

theorem finds_encodeLocal (l : Layout) (r : LocalRecord) :
    Finds (encodeLocal l r) fun q bytes => r.WrittenAs l q bytes := by
  have h := finds_bind (finds_internText r.name) (lasting_holdsText r.name) fun name =>
    finds_bind (finds_internText r.descriptor) (lasting_holdsText r.descriptor) fun descriptor =>
      finds_pure (RawLocal.mk (l.offsetOf r.start) (l.offsetOf r.stop) name descriptor r.slot).bytes
  refine h.weaken fun q bytes ⟨name, hname, descriptor, hdescriptor, hbytes⟩ => ?_
  exact ⟨_, hbytes, rfl, hname.text, hdescriptor.text, rfl, rfl⟩

/-- The local variable records that do not end before they start. -/
def Layout.orderedLocals (l : Layout) (records : List LocalRecord) : List LocalRecord :=
  records.filter fun r => l.offsetOf r.start ≤ l.offsetOf r.stop

/-- The local variable records that do not end before they start, by offset. -/
def Layout.locals (l : Layout) (records : List LocalRecord) : List LocalRecord :=
  (l.orderedLocals records).map (LocalRecord.mapLabels l.byOffset)

/-- A table of local variables in attributes. -/
def Layout.HasLocals (l : Layout) (name : String) (records : List LocalRecord)
    (pool : ConstantPool) (raws : List RawAttribute) : Prop :=
  ∃ entries : List RawLocal, List.Forall₂ (RawLocal.Denotes pool) entries (l.locals records) ∧
    List.Forall₂ (RawAttribute.IsNamed pool) raws
      (namedTable name (entries.map RawLocal.bytes))

theorem Layout.HasLocals.growsTo {l : Layout} {name : String} {records : List LocalRecord}
    {p q : ConstantPool} {raws : List RawAttribute} (hgrow : p.GrowsTo q)
    (h : l.HasLocals name records p raws) : l.HasLocals name records q raws := by
  obtain ⟨entries, hdenote, hnamed⟩ := h
  exact ⟨entries, hdenote.imp fun _ _ hd => hd.growsTo hgrow,
    hnamed.imp fun _ _ ha => ha.growsTo hgrow⟩

theorem entries_of_written {l : Layout} {pool : ConstantPool} {records : List LocalRecord}
    {bytes : List Bytes} (h : List.Forall₂ (fun r b => r.WrittenAs l pool b) records bytes) :
    ∃ entries : List RawLocal, bytes = entries.map RawLocal.bytes ∧
      List.Forall₂ (RawLocal.Denotes pool) entries
        (records.map (LocalRecord.mapLabels l.byOffset)) := by
  induction h with
  | nil => exact ⟨[], rfl, .nil⟩
  | cons hb _ ih =>
    obtain ⟨raw, hraw, hdenotes⟩ := hb
    obtain ⟨entries, hentries, hrest⟩ := ih
    exact ⟨raw :: entries, by rw [hraw, hentries, List.map_cons], .cons hdenotes hrest⟩

/-- **The tables of local variables** have entries for the records in order. -/
theorem finds_localsAttribute (name : String) (l : Layout) (records : List LocalRecord) :
    Finds (localsAttribute name l records) fun q raws => l.HasLocals name records q raws := by
  have hentries := finds_mapM (fun r (_ : r ∈ l.orderedLocals records) => finds_encodeLocal l r)
    fun r bytes p q hgrow ⟨raw, hraw, hdenotes⟩ => ⟨raw, hraw, hdenotes.growsTo hgrow⟩
  have h := finds_bind hentries
    (fun bytes p q hgrow hb => hb.imp fun r b ⟨raw, hraw, hdenotes⟩ =>
      ⟨raw, hraw, hdenotes.growsTo hgrow⟩) fun bytes => finds_tableAttribute name bytes
  refine h.weaken fun q raws ⟨bytes, hbytes, hraws⟩ => ?_
  obtain ⟨entries, rfl, hdenote⟩ := entries_of_written hbytes
  exact ⟨entries, hdenote, hraws⟩

/-! ## 4. Attributes that are sorted in -/

section Take

variable {pool : ConstantPool} {parts : CodeParts}

/-- Sorting attributes in by the names in the pool. -/
theorem foldlM_takeAttribute {raws : List RawAttribute} {named : List (String × Bytes)}
    (h : List.Forall₂ (RawAttribute.IsNamed pool) raws named) :
    raws.foldlM (takeAttribute pool) parts =
      named.foldlM (fun parts a => CodeParts.take parts a.1 a.2) parts := by
  induction h generalizing parts with
  | nil => rfl
  | @cons raw a raws named ha _ ih =>
    have hhead : takeAttribute pool parts raw = parts.take a.1 a.2 := by
      rw [takeAttribute, ha.name_eq, ← ha.body_eq]
      rfl
    rw [List.foldlM_cons, List.foldlM_cons, hhead]
    exact congrArg _ (funext fun parts => ih)

/-- A table is sorted in, whether it has entries or not. -/
theorem foldlM_take_table {name : String} {entries : List Bytes} {parts' : CodeParts}
    (hempty : entries = [] → parts' = parts)
    (h : parts.take name (tableBytes entries) = .ok parts') :
    (namedTable name entries).foldlM (fun parts a => CodeParts.take parts a.1 a.2) parts =
      .ok parts' := by
  cases entries with
  | nil => rw [hempty rfl]; rfl
  | cons entry rest =>
    rw [namedTable, if_neg (by simp), List.foldlM_cons]
    exact bind_eq_ok.2 ⟨_, h, rfl⟩

end Take

/-! ## 5. Attributes that are carried over -/

/-- What an attribute of the code that was read is carried over as, if it is. -/
def carriedAttribute (preserved : Bool) (newOffset : Nat → Option Nat) (a : String × Bytes) :
    Option (String × Bytes) :=
  if preserved then some a
  else if a.1 = AttributeName.stackMap then
    (relocateFrames newOffset a.2).toOption.map fun body => (a.1, body)
  else none

/-- Whether attributes were added, with the given names and bodies. -/
def Carryover.Adds (c c' : Carryover) (pool : ConstantPool) (named : List (String × Bytes)) : Prop :=
  ∃ more, c'.kept = c.kept ++ more ∧ List.Forall₂ (RawAttribute.IsNamed pool) more named

section Carry

variable {m : Method} {preserved : Bool} {newOffset : Nat → Option Nat}

theorem finds_keep (c : Carryover) (name : String) (body : Bytes) :
    Assembly.Finds (carryAttribute.keep c name body) fun q c' => c.Adds c' q [(name, body)] := by
  have h := Assembly.finds_bind (Assembly.finds_liftStep (finds_namedAttribute name body))
    (fun raw p q hgrow hraw => hraw.growsTo hgrow) fun raw =>
      Assembly.finds_pure ({ c with kept := c.kept ++ [raw] } : Carryover)
  refine h.weaken fun q c' ⟨raw, hraw, hc⟩ => ?_
  rw [hc]
  exact ⟨[raw], rfl, .cons hraw .nil⟩

theorem finds_drop (c : Carryover) (name : String) :
    Assembly.Finds (carryAttribute.drop c name) fun q c' => c.Adds c' q [] := by
  refine (Assembly.finds_pure _).weaken fun q c' hc => ?_
  rw [hc]
  exact ⟨[], (List.append_nil _).symm, .nil⟩

theorem finds_carryAttribute (c : Carryover) (a : String × Bytes) :
    Assembly.Finds (carryAttribute m preserved newOffset c a.1 a.2) fun q c' =>
      c.Adds c' q (carriedAttribute preserved newOffset a).toList := by
  unfold carryAttribute carriedAttribute
  split
  · exact finds_keep c a.1 a.2
  · split
    · cases hmoved : relocateFrames newOffset a.2 with
      | ok body => exact finds_keep c a.1 body
      | error reason =>
        have h := Assembly.finds_bind
          (Assembly.finds_note (.framesLost m.name m.descriptor reason)) (fun _ _ _ _ h => h)
          fun _ => finds_drop c a.1
        exact h.weaken fun q c' ⟨_, _, hc⟩ => hc
    · exact finds_drop c a.1

/-- **The attributes carried over** are written after the tables. -/
theorem finds_carryAttributes (attributes : List (String × Bytes)) (c : Carryover) :
    Assembly.Finds (attributes.foldlM
        (fun c (name, body) => carryAttribute m preserved newOffset c name body) c) fun q c' =>
      c.Adds c' q (attributes.filterMap (carriedAttribute preserved newOffset)) := by
  induction attributes generalizing c with
  | nil =>
    refine (Assembly.finds_pure c).weaken fun q c' hc => ?_
    rw [hc]
    exact ⟨[], (List.append_nil _).symm, .nil⟩
  | cons a rest ih =>
    rw [List.foldlM_cons]
    have hlast : ∀ c', Lasting fun pool => c.Adds c' pool
        (carriedAttribute preserved newOffset a).toList :=
      fun c' p q hgrow ⟨more, hmore, hnamed⟩ =>
        ⟨more, hmore, hnamed.imp fun _ _ hr => hr.growsTo hgrow⟩
    have h := Assembly.finds_bind (finds_carryAttribute (m := m) c a) hlast fun c' => ih c'
    refine h.weaken fun q c' ⟨c₁, ⟨first, hfirst, hnamed⟩, more, hmore, hrest⟩ => ?_
    refine ⟨first ++ more, by rw [hmore, hfirst, List.append_assoc], ?_⟩
    have hsplit : (a :: rest).filterMap (carriedAttribute preserved newOffset) =
        (carriedAttribute preserved newOffset a).toList ++
          rest.filterMap (carriedAttribute preserved newOffset) := by
      cases hcarried : carriedAttribute preserved newOffset a with
      | none => rw [List.filterMap_cons_none hcarried]; rfl
      | some b => rw [List.filterMap_cons_some hcarried]; rfl
    rw [hsplit]
    exact List.rel_append hnamed hrest

end Carry

/-! ## 6. Code that was read -/

/-- Whether an origin is that of code which was read. -/
def CodeOrigin.IsRead (o : CodeOrigin) : Prop :=
  ∃ pool blank body m, decodeMethod pool blank body = .ok m ∧ m.origin = some o

theorem CodeOrigin.IsRead.kept {o : CodeOrigin} (h : o.IsRead) :
    ∀ a ∈ o.attributes, KeptWhole a := by
  obtain ⟨pool, blank, body, m, hm, ho⟩ := h
  obtain ⟨parts, scan, offsets, nodes, handlers, locals, localTypes, hparts, -, -, -, -, -, -, rfl⟩ :=
    decodeMethod_eq_ok.1 hm
  cases ho
  exact (CodeParts.sorted_of_read hparts).kept

/-- Every offset that the frames of code that was read mention has a label. -/
theorem CodeOrigin.IsRead.label_of_frame {o : CodeOrigin} (h : o.IsRead) {n : Nat}
    (hn : n ∈ lastFrameOffsets o.attributes) : ∃ label, (label, n) ∈ o.labelOffsets := by
  obtain ⟨pool, blank, body, m, hm, ho⟩ := h
  obtain ⟨parts, scan, offsets, nodes, handlers, locals, localTypes, hparts, -, hoffsets, -, -, -, -,
    rfl⟩ := decodeMethod_eq_ok.1 hm
  cases ho
  obtain ⟨hplaces, rfl⟩ := labelledOffsets_eq_ok.1 hoffsets
  have hframe : n ∈ parts.frameOffsets := by
    rwa [(CodeParts.sorted_of_read hparts).frames]
  have hreferenced : n ∈ referencedOffsets parts scan :=
    List.mem_append_right _ (List.mem_append_right _ hframe)
  exact exists_label (List.mem_filter.2 ⟨hplaces n hreferenced, by simpa using hreferenced⟩)

/-- Frame offsets are those of some stack map table. -/
theorem exists_of_mem_lastFrameOffsets {attributes : List (String × Bytes)} {n : Nat}
    (h : n ∈ lastFrameOffsets attributes) :
    ∃ a ∈ attributes, a.1 = AttributeName.stackMap ∧
      ∃ frames, readFrames a.2 = .ok frames ∧ n ∈ frames.flatMap Frame.offsets := by
  induction attributes using List.reverseRecOn with
  | nil => cases h
  | append_singleton before a ih =>
    rw [lastFrameOffsets_concat] at h
    have hbefore : n ∈ lastFrameOffsets before →
        ∃ b ∈ before ++ [a], b.1 = AttributeName.stackMap ∧
          ∃ frames, readFrames b.2 = .ok frames ∧ n ∈ frames.flatMap Frame.offsets := by
      intro hn
      obtain ⟨b, hb, hrest⟩ := ih hn
      exact ⟨b, List.mem_append_left _ hb, hrest⟩
    unfold frameOffsetsAfter at h
    split at h
    · rename_i hname
      split at h
      · rename_i frames hframes
        exact ⟨a, List.mem_append_right _ List.mem_cons_self, hname, frames, hframes, h⟩
      · exact hbefore h
    · exact hbefore h

section Carried

variable {newOffset : Nat → Option Nat} {attributes : List (String × Bytes)}

theorem carriedAttribute_moved {a b : String × Bytes}
    (h : carriedAttribute false newOffset a = some b) :
    b.1 = AttributeName.stackMap ∧ relocateFrames newOffset a.2 = .ok b.2 := by
  unfold carriedAttribute at h
  rw [if_neg Bool.false_ne_true] at h
  split at h
  · rename_i hname
    cases hmoved : relocateFrames newOffset a.2 with
    | error reason =>
      rw [hmoved] at h
      cases h
    | ok body =>
      rw [hmoved] at h
      cases h
      exact ⟨hname, rfl⟩
  · cases h

theorem filterMap_carriedAttribute_preserved :
    attributes.filterMap (carriedAttribute true newOffset) = attributes := by
  have hsome : carriedAttribute true newOffset = some := funext fun a => if_pos rfl
  rw [hsome, List.filterMap_some]

/-- Attributes that are carried over can be kept whole again. -/
theorem kept_of_carried (small : ∀ n k, newOffset n = some k → k ≤ 0xffff)
    (kept : ∀ a ∈ attributes, KeptWhole a) (preserved : Bool) :
    ∀ a ∈ attributes.filterMap (carriedAttribute preserved newOffset), KeptWhole a := by
  cases preserved with
  | true =>
    rw [filterMap_carriedAttribute_preserved]
    exact kept
  | false =>
    intro b hb
    obtain ⟨a, -, hab⟩ := List.mem_filterMap.1 hb
    obtain ⟨hname, hmoved⟩ := carriedAttribute_moved hab
    obtain ⟨frames, hframes, -⟩ := offsets_of_relocateFrames small hmoved
    refine ⟨?_, ?_, ?_, fun _ => ⟨frames, hframes⟩⟩ <;>
    · rw [hname]
      decide

/-- Frames that are moved mention new offsets only. -/
theorem newOffset_of_carriedFrame (small : ∀ n k, newOffset n = some k → k ≤ 0xffff) {n : Nat}
    (hn : n ∈ lastFrameOffsets (attributes.filterMap (carriedAttribute false newOffset))) :
    IsNewOffset newOffset n := by
  obtain ⟨b, hb, -, frames, hframes, hmem⟩ := exists_of_mem_lastFrameOffsets hn
  obtain ⟨a, -, hab⟩ := List.mem_filterMap.1 hb
  obtain ⟨moved, hmoved, hknown⟩ := offsets_of_relocateFrames small (carriedAttribute_moved hab).2
  rw [hframes] at hmoved
  cases hmoved
  exact hknown n hmem

end Carried

end Rewire
