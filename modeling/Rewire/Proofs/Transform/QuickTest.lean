import Mathlib
import Rewire.Proofs.Text.Prefix
import Rewire.Proofs.Transform.Calls

/-!
# The quick test misses nothing

Whether a class is looked at is decided on the bytes of its texts, what is redirected on the owners
of its decoded calls. This file shows

* that the owner of a decoded call was read from a text of the pool (`ClassFile.owner_of_decode`);
* that a watched owner starts with one of the namespaces (`CallFilter.exists_namespace`), so that the
  bytes of its text do (`ClassFile.references_of_watched`);
* that redirection leaves a method without watched calls as it is (`redirectCalls_of_unwatched`);
* so a class that need not be transformed is not changed, and nothing in it would be redirected
  (`Transformer.unchanged_of_skipped`).
-/

namespace Rewire

open ConstantPool

/-! ## 1. Owners of calls -/

theorem ConstantPool.mem_constants_of_get {p : ConstantPool} {i : UInt16} {k : Constant}
    (h : p.get i = .ok k) : k ∈ p.constants :=
  List.mem_filterMap.2 ⟨some k, Array.mem_def.1 (Array.mem_of_getElem? (get_eq_ok.1 h)), rfl⟩

/-- The owner of a member was read from a text. -/
theorem ConstantPool.owner_of_memberRef {p : ConstantPool} {i : UInt16} {m : MemberRef}
    (h : p.memberRef i = .ok m) :
    ∃ bytes, .utf8 bytes ∈ p.constants ∧ Modified.decodeText bytes = .ok m.owner := by
  obtain ⟨c, -, h⟩ := bind_eq_ok.1 h
  obtain ⟨owner, howner⟩ : ∃ owner, p.className owner = .ok m.owner := by
    cases c with
    | fieldRef owner member | methodRef owner member | interfaceMethodRef owner member =>
      exact ⟨owner, (resolve_eq_ok.1 h).1⟩
    | _ => cases h
  obtain ⟨c, -, howner⟩ := bind_eq_ok.1 howner
  cases c with
  | classRef name =>
    obtain ⟨bytes, hget, hdecode⟩ := text_eq_ok.1 howner
    exact ⟨bytes, mem_constants_of_get hget, hdecode⟩
  | _ => cases howner

theorem owner_of_decodeInsn {code : Array UInt8} {pool : ConstantPool} {labels : LabelTable}
    {offset : Nat} {site : CallSite} (h : decodeInsn code pool labels offset = .ok (.call site)) :
    ∃ bytes, .utf8 bytes ∈ pool.constants ∧ Modified.decodeText bytes = .ok site.owner := by
  obtain ⟨op, format, -, -, hi⟩ := decodedAs_of_decode h
  cases hi with
  | call _ hmember => exact owner_of_memberRef hmember
  | invokeDynamic hcall =>
    obtain ⟨name, descriptor, heq, -⟩ := computedCall_eq hcall
    cases heq

namespace ClassFile

variable {c : ClassFile} {decoded : ClassBody}

/-- The methods of a decoded class were decoded from its entries. -/
theorem exists_decodeMember (h : c.decode = .ok decoded) {m : Method} (hm : m ∈ decoded.methods) :
    ∃ name, ∃ entry ∈ c.methods, c.decodeMember name entry = .ok m := by
  obtain ⟨name, -, h⟩ := bind_eq_ok.1 h
  obtain ⟨methods, hmethods, h⟩ := bind_eq_ok.1 h
  obtain ⟨superName, -, h⟩ := bind_eq_ok.1 h
  cases h
  obtain ⟨entry, hentry, hdecode⟩ := exists_left_of_forall₂ (mapM_eq_ok.1 hmethods) hm
  exact ⟨name, entry, hentry, hdecode⟩

/-- **The owner of a decoded call** was read from a text of the pool. -/
theorem owner_of_decode (h : c.decode = .ok decoded) {m : Method} (hm : m ∈ decoded.methods)
    {site : CallSite} (hsite : .call site ∈ m.insns) :
    ∃ bytes, .utf8 bytes ∈ c.pool.constants ∧ Modified.decodeText bytes = .ok site.owner := by
  obtain ⟨_, entry, -, hdecode⟩ := exists_decodeMember h hm
  obtain ⟨_, _, -, -, ⟨-, rfl⟩ | ⟨_, a, _, -, hcode⟩⟩ := decodeMember_eq_ok.1 hdecode
  · cases hsite
  · obtain ⟨code, labels, offset, hinsn⟩ := exists_decodeInsn hcode hsite
    exact owner_of_decodeInsn hinsn

/-- Decoded methods are not modified. -/
theorem modified_of_decode (h : c.decode = .ok decoded) {m : Method} (hm : m ∈ decoded.methods) :
    m.modified = false := by
  obtain ⟨_, entry, -, hdecode⟩ := exists_decodeMember h hm
  obtain ⟨_, _, -, -, ⟨-, rfl⟩ | ⟨_, a, _, -, hcode⟩⟩ := decodeMember_eq_ok.1 hdecode
  · rfl
  · obtain ⟨_, _, _, _, _, _, _, -, -, -, -, -, -, -, rfl⟩ := decodeMethod_eq_ok.1 hcode
    rfl

end ClassFile

/-! ## 2. Watched owners -/

/-- A text starts with itself. -/
theorem startsWith_self (s : String) : startsWith s s = true :=
  List.isPrefixOf_iff_prefix.2 (List.prefix_refl _)

namespace CallFilter

variable {f : CallFilter} {owner name : String}

/-- The namespaces are the starts of watched owners and the owners of special calls. -/
theorem mem_namespaces {s : String} :
    s ∈ f.namespaces ↔ s ∈ f.watchedOwners ∨ ∃ call ∈ f.specialCalls, call.owner = s := by
  have hfold : ∀ (calls : List SpecialCall) (found : List String),
      s ∈ calls.foldl
          (fun found c => if found.contains c.owner then found else found ++ [c.owner]) found ↔
        s ∈ found ∨ ∃ call ∈ calls, call.owner = s := by
    intro calls
    induction calls with
    | nil => simp
    | cons call rest ih =>
      intro found
      rw [List.foldl_cons, ih]
      split
      · rename_i hfound
        have hmem : call.owner ∈ found := List.contains_iff_mem.1 hfound
        constructor
        · rintro (hs | ⟨other, hother, rfl⟩)
          · exact .inl hs
          · exact .inr ⟨other, List.mem_cons_of_mem call hother, rfl⟩
        · rintro (hs | ⟨other, hother, rfl⟩)
          · exact .inl hs
          · rcases List.mem_cons.1 hother with rfl | hother
            · exact .inl hmem
            · exact .inr ⟨other, hother, rfl⟩
      · rw [List.mem_append, List.mem_singleton, or_assoc, List.exists_mem_cons_iff,
          @eq_comm _ s call.owner]
  exact hfold f.specialCalls f.watchedOwners

/-- **A watched owner** starts with one of the namespaces. -/
theorem exists_namespace (h : f.watches owner name = true) :
    ∃ s ∈ f.namespaces, startsWith owner s = true := by
  unfold watches at h
  rw [Bool.and_eq_true, Bool.or_eq_true] at h
  rcases h.2 with hspecial | hprefix
  · have hmem := List.contains_iff_mem.1 hspecial
    exact ⟨owner, mem_namespaces.2 (.inr ⟨_, hmem, rfl⟩), startsWith_self owner⟩
  · obtain ⟨s, hs, hstarts⟩ := List.any_eq_true.1 hprefix
    exact ⟨s, mem_namespaces.2 (.inl hs), hstarts⟩

end CallFilter

/-- Whether all texts of a pool are as short as modified UTF-8 can spell them. -/
def ConstantPool.TextsAreShortest (p : ConstantPool) : Prop :=
  ∀ bytes, .utf8 bytes ∈ p.constants → ∃ units, bytes = Modified.encodeUnits units

/-- **A class with a watched call** has a text that starts with a namespace, byte by byte. -/
theorem ClassFile.references_of_watched {c : ClassFile} {decoded : ClassBody} {f : CallFilter}
    (plain : ∀ s ∈ f.namespaces, PlainText s) (shortest : c.pool.TextsAreShortest)
    (h : c.decode = .ok decoded) {m : Method} (hm : m ∈ decoded.methods) {site : CallSite}
    (hsite : .call site ∈ m.insns) (hwatched : f.watches site.owner site.name = true) :
    c.pool.constants.any
      (Constant.textStartsWith (f.namespaces.map fun s => s.toUTF8.toList)) = true := by
  obtain ⟨bytes, hbytes, hdecode⟩ := owner_of_decode h hm hsite
  obtain ⟨s, hs, hstarts⟩ := CallFilter.exists_namespace hwatched
  obtain ⟨units, rfl⟩ := shortest bytes hbytes
  have howner : ofUnits16 units = site.owner := by
    rw [Modified.decodeText, Modified.decodeUnits_encodeUnits] at hdecode
    exact Except.ok.inj hdecode
  rw [← howner] at hstarts
  refine List.any_eq_true.2 ⟨_, hbytes, List.any_eq_true.2 ⟨_, List.mem_map_of_mem hs, ?_⟩⟩
  exact List.isPrefixOf_iff_prefix.2 ((plain s hs).prefix_encodeUnits hstarts)

/-! ## 3. Methods without watched calls -/

section Unwatched

variable {table : RedirectTable} {filter : CallFilter}

/-- What is done with a node that is no watched call, and what is reported about it: nothing. -/
theorem treat_of_unwatched (table : RedirectTable) (place : Member) {node : Node}
    (h : ∀ site, node = .insn (.call site) → filter.watches site.owner site.name = false) :
    treat table filter node = .ok (.keep node) ∧ noticesFor place table filter node = [] := by
  unfold treat noticesFor
  split
  · rename_i site
    rw [if_neg (Bool.eq_false_iff.1 (h site rfl)), if_neg (Bool.eq_false_iff.1 (h site rfl))]
    exact ⟨rfl, rfl⟩
  · exact ⟨rfl, rfl⟩

theorem treatAll_of_unwatched {nodes : List Node}
    (h : ∀ site, .insn (.call site) ∈ nodes → filter.watches site.owner site.name = false)
    (done : List Treatment) :
    treatAll table filter done nodes = (done.reverse ++ nodes.map Treatment.keep, none) := by
  refine treatAll_of_treated (List.forall₂_map_right_iff.2 (List.forall₂_same.2 ?_)) done
  intro node hnode
  exact (treat_of_unwatched table default fun site hsite => h site (hsite ▸ hnode)).1

/-- **Redirection changes nothing** in a method without watched calls. -/
theorem redirectCalls_of_unwatched {m : Method}
    (h : ∀ site, .call site ∈ m.insns → filter.watches site.owner site.name = false)
    (className : String) :
    redirectCalls className table filter m = { method := m, notices := [], result := .ok {} } := by
  have hnodes : ∀ site, .insn (.call site) ∈ m.nodes.toList →
      filter.watches site.owner site.name = false :=
    fun site hsite => h site (Method.mem_insns_iff.2 hsite)
  have hkept : (m.nodes.toList.map Treatment.keep).flatMap Treatment.nodes = m.nodes.toList := by
    rw [List.flatMap_map]
    exact List.flatMap_singleton' _
  have hchanges : (m.nodes.toList.map Treatment.keep).any Treatment.changes = false := by
    simp [Treatment.changes]
  have hredirects : (m.nodes.toList.map Treatment.keep).countP Treatment.isRedirect = 0 := by
    simp [Treatment.isRedirect]
  have hstubs : (m.nodes.toList.map Treatment.keep).filterMap Treatment.stubbed? = [] := by
    simp [Treatment.stubbed?]
  have hnotices : ∀ count place,
      (m.nodes.toList.take count).flatMap (noticesFor place table filter) = [] := by
    intro count place
    refine List.flatMap_eq_nil_iff.2 fun node hnode => ?_
    exact (treat_of_unwatched table place fun site hsite =>
      hnodes site (hsite ▸ List.mem_of_mem_take hnode)).2
  unfold redirectCalls
  rw [treatAll_of_unwatched hnodes]
  simp only [List.reverse_nil, List.nil_append, hkept, hchanges, hredirects, hstubs, hnotices,
    Bool.or_false, Array.toArray_toList, List.map_nil]

end Unwatched

/-! ## 4. Classes that are skipped -/

namespace Transformer

variable {σ : Type} {t : Transformer σ} {name : String} {data : Bytes} {c : ClassFile}
  {decoded : ClassBody} {log : Log}

/-- A class that can be read is skipped for these reasons only: it is the target of no rule, and it
    is left alone or refers to no watched owner. -/
theorem skipped_of_shouldTransform (hread : ClassFile.read data = .ok c)
    (h : (t.shouldTransform name data log).1 = false) :
    t.rulesFor name = [] ∧
      (t.classFilter.excludes name = true ∨
        referencesNamespace data t.namespaces = .ok false) := by
  unfold shouldTransform at h
  split at h
  · cases h
  · rename_i hrules
    refine ⟨List.filter_eq_nil_iff.2 fun r hr hfor => hrules (List.any_eq_true.2 ⟨r, hr, hfor⟩), ?_⟩
    split at h
    · rename_i hname
      exact .inl hname
    · rw [referencesNamespace_of_read hread] at h ⊢
      exact .inr (congrArg Except.ok h)

/-- A decoded class to which no rule applies and in which nothing is redirected comes out as it went
    in. -/
theorem transformClass_of_skipped (hread : ClassFile.read data = .ok c)
    (hdecode : c.decode = .ok decoded) (hrules : t.rulesFor name = [])
    (hskip : t.classFilter.excludes name = true ∨
      referencesNamespace data t.namespaces = .ok false) (s : σ) :
    t.transformClass name data (log, s) = (.ok { bytes := data }, (log, s)) := by
  have hpatched : t.applyRules name decoded (log, s) = (.ok decoded, (log, s)) := by
    rw [applyRules, hrules]
    rfl
  have hedited : t.redirectIfWatched name data decoded log = (.ok (decoded, {}), log) := by
    unfold redirectIfWatched
    split
    · rfl
    · rename_i hname
      rw [hskip.resolve_left hname]
      rfl
  have hmodified : decoded.methods.any Method.modified = false :=
    List.any_eq_false.2 fun m hm => Bool.eq_false_iff.1 (ClassFile.modified_of_decode hdecode hm)
  refine Step.bind_eq_ok.2 ⟨c, _, Step.lift_eq_ok.2 ⟨during_eq_ok.2 hread, rfl⟩,
    Step.bind_eq_ok.2 ⟨decoded, _, Step.lift_eq_ok.2 ⟨during_eq_ok.2 hdecode, rfl⟩,
    Step.bind_eq_ok.2 ⟨decoded, _, hpatched,
    Step.bind_eq_ok.2 ⟨(decoded, {}), _, Generating.lift_eq_ok.2 ⟨hedited, rfl⟩, ?_⟩⟩⟩⟩
  rw [hrules]
  simp only [hmodified]
  rfl

/-- **The quick test misses nothing.** Let the starts of watched owners and the owners of special
    calls be ASCII without NUL, and let the texts of a class that can be read and decoded be as
    short as modified UTF-8 can spell them. If the class need not be transformed, transforming it
    gives the same bytes and reports nothing. If it is not left alone either, none of its calls is
    watched, and redirecting them would change nothing in any method. -/
theorem unchanged_of_skipped (watched : ∀ s ∈ t.callFilter.watchedOwners, PlainText s)
    (special : ∀ call ∈ t.callFilter.specialCalls, PlainText call.owner)
    (hread : ClassFile.read data = .ok c) (hdecode : c.decode = .ok decoded)
    (shortest : c.pool.TextsAreShortest) (h : (t.shouldTransform name data log).1 = false) :
    (∀ log' s, t.transformClass name data (log', s) = (.ok { bytes := data }, (log', s))) ∧
      (t.classFilter.excludes name = false → ∀ m ∈ decoded.methods,
        (∀ site, .call site ∈ m.insns → t.callFilter.watches site.owner site.name = false) ∧
          ∀ className, redirectCalls className t.table t.callFilter m =
            { method := m, notices := [], result := .ok {} }) := by
  obtain ⟨hrules, hskip⟩ := skipped_of_shouldTransform hread h
  refine ⟨fun _ => transformClass_of_skipped hread hdecode hrules hskip, fun hname m hm => ?_⟩
  have hfound : referencesNamespace data t.namespaces = .ok false := by
    rcases hskip with hexcluded | hfound
    · rw [hname] at hexcluded
      cases hexcluded
    · exact hfound
  have plain : ∀ s ∈ t.callFilter.namespaces, PlainText s := by
    intro s hs
    rcases CallFilter.mem_namespaces.1 hs with hs | ⟨call, hcall, rfl⟩
    · exact watched s hs
    · exact special call hcall
  have unwatched : ∀ site, .call site ∈ m.insns →
      t.callFilter.watches site.owner site.name = false := by
    intro site hsite
    by_contra hwatched
    -- A watched call would have made the quick test find its owner.
    have hrefers := c.references_of_watched plain shortest hdecode hm hsite
      (Bool.eq_true_of_not_eq_false hwatched)
    rw [referencesNamespace_of_read hread] at hfound
    rw [show t.namespaces = t.callFilter.namespaces from rfl, hrefers] at hfound
    cases hfound
  exact ⟨unwatched, redirectCalls_of_unwatched unwatched⟩

end Transformer

/-! ## 5. A class with a call that is not watched -/

namespace skippedCall

/-- A transformer that watches other owners than the one that is called. -/
def elsewhere : Transformer Unit where
  table := clearTable
  classFilter := {}
  callFilter :=
    { watchedOwners := ["org/lwjgl/opengl/GL"], specialCalls := [⟨"gl/B", "draw"⟩] }
  rules := []

theorem textsAreShortest : classFile.pool.TextsAreShortest := by
  intro bytes hbytes
  rw [show classFile.pool.constants = [.utf8 (Modified.encodeText "A"), .classRef 1,
    .utf8 (Modified.encodeText "f"), .utf8 (Modified.encodeText "()V"),
    .utf8 (Modified.encodeText AttributeName.code),
    .utf8 (Modified.encodeText "java/lang/Object"), .classRef 6,
    .utf8 (Modified.encodeText AttributeName.stackMap), .utf8 (Modified.encodeText "gl/A"),
    .classRef 9, .utf8 (Modified.encodeText "draw"), .nameAndType 11 4, .methodRef 10 12]
    from rfl] at hbytes
  simp only [List.mem_cons, List.not_mem_nil, Constant.utf8.injEq, reduceCtorEq, false_or,
    or_false] at hbytes
  rcases hbytes with rfl | rfl | rfl | rfl | rfl | rfl | rfl | rfl <;> exact ⟨_, rfl⟩

theorem shouldTransform_elsewhere {data : Bytes} (h : ClassFile.read data = .ok classFile) :
    (elsewhere.shouldTransform "A" data #[]).1 = false := by
  have hfound : referencesNamespace data elsewhere.namespaces = .ok false := by
    rw [referencesNamespace_of_read h]
    decide +kernel
  unfold Transformer.shouldTransform
  rw [hfound]
  decide +kernel

end skippedCall

/-- The class is skipped: its call is not watched. -/
theorem Transformer.unchanged_of_skipped_skippedCall : ∃ data,
    ClassFile.read data = .ok skippedCall.classFile ∧
      (skippedCall.elsewhere.shouldTransform "A" data #[]).1 = false ∧
      skippedCall.elsewhere.transformClass "A" data (#[], ()) =
        (.ok { bytes := data }, (#[], ())) ∧
      skippedCall.elsewhere.callFilter.watches "gl/A" "draw" = false ∧
      redirectCalls "A" clearTable skippedCall.elsewhere.callFilter skippedCall.method =
        { method := skippedCall.method, notices := [], result := .ok {} } := by
  obtain ⟨data, hdata⟩ := skippedCall.read_classFile
  have hskip := skippedCall.shouldTransform_elsewhere hdata
  obtain ⟨hout, hcalls⟩ := Transformer.unchanged_of_skipped (t := skippedCall.elsewhere)
    (by decide +kernel) (by decide +kernel) hdata skippedCall.decode_classFile
    skippedCall.textsAreShortest hskip
  obtain ⟨hwatched, hredirect⟩ := hcalls rfl skippedCall.method (List.mem_singleton.2 rfl)
  exact ⟨data, hdata, hskip, hout #[] (), hwatched
    { owner := "gl/A", name := "draw", descriptor := "()V", interface := false, kind := .static }
    (by decide +kernel), hredirect "A"⟩

end Rewire
