import Enrich.Proofs.Preconditions
/-!
# What becomes of a member, case by case

The annotations of a method that ask for an extension are its *requests*; there may be others
before, between and after them.  Which case a method falls under as a member depends on its requests
and its place.  Without a request it stays, and with several it goes, whatever they say.  A single
one is answered for what it says and for the place.  `Decides` is the table of these cases.

* `Search.of_of_several`, `Search.of_of_malformed`, `Search.of_of_extension`: what the search finds,
  read off the requests.
* `decides_expandMemberIn`: the table is right for each method that is met as a member.
* `expandUnit_decides`: the main statement, for a method among the members in a tree.
-/

namespace Enrich

/-! ## 1. Requests -/

/-- Does an annotation ask for an extension, well formed or not? -/
def Tree.isRequest (names : AnnotationNames) (a : Tree) : Bool :=
  (AnnotationMatch.of names a).isExtension

namespace MethodDef

variable (names : AnnotationNames) (d : MethodDef Tree Tree)

/-- The annotations that ask for an extension, in order. -/
def requests : List Tree := d.mods.annotations.filter (Tree.isRequest names)

/-- The method with its other annotations only. -/
def withoutRequests : MethodDef Tree Tree :=
  { d with mods.annotations := d.mods.annotations.filter fun a => !a.isRequest names }

end MethodDef

namespace Search

variable {names : AnnotationNames} {anns : List Tree}

theorem map_fst_candidates (names : AnnotationNames) (anns : List Tree) :
    (candidates names anns).map Prod.fst = anns.filter (Tree.isRequest names) :=
  calc (candidates names anns).map Prod.fst
    _ = (anns.zipIdx.filter (Tree.isRequest names ∘ Prod.fst)).map Prod.fst := rfl
    _ = (anns.zipIdx.map Prod.fst).filter (Tree.isRequest names) := List.filter_map.symm
    _ = anns.filter (Tree.isRequest names) := by rw [List.zipIdx_map_fst]

/-- A single request is the only candidate, and the others are left if it is taken out. -/
theorem candidates_of_single {a : Tree} (h : anns.filter (Tree.isRequest names) = [a]) :
    ∃ index, candidates names anns = [(a, index)] ∧
      anns.eraseIdx index = anns.filter fun a => !a.isRequest names := by
  obtain ⟨before, after, rfl, hbefore, ha, hafter⟩ := List.filter_eq_cons_iff.mp h
  rw [List.filter_eq_nil_iff] at hafter
  have hnone : ∀ {l : List Tree} {k : Nat}, (∀ x ∈ l, ¬ x.isRequest names = true) →
      (l.zipIdx k).filter (Tree.isRequest names ∘ Prod.fst) = [] := fun hl =>
    List.filter_eq_nil_iff.mpr fun x hx => hl x.1 (List.fst_mem_of_mem_zipIdx hx)
  have hothers : ∀ {l : List Tree}, (∀ x ∈ l, ¬ x.isRequest names = true) →
      l.filter (fun x => !x.isRequest names) = l := fun hl =>
    List.filter_eq_self.mpr fun x hx => by simpa using hl x hx
  refine ⟨before.length, ?_, ?_⟩
  · change (List.zipIdx _).filter (Tree.isRequest names ∘ Prod.fst) = _
    rw [List.zipIdx_append, List.zipIdx_cons, List.filter_append, hnone hbefore,
      List.filter_cons_of_pos (by exact ha), hnone hafter, Nat.zero_add]
    rfl
  · rw [List.eraseIdx_append_of_length_le (Nat.le_refl _), Nat.sub_self, List.eraseIdx_cons_zero,
      List.filter_append, hothers hbefore, List.filter_cons_of_neg (by simp [ha]), hothers hafter]

theorem of_of_none (h : anns.filter (Tree.isRequest names) = []) :
    Search.of names anns = .nothing := by
  rw [← map_fst_candidates, List.map_eq_nil_iff] at h
  simp only [Search.of, h]

/-- Several requests are found together, whatever they say. -/
theorem of_of_several (h : 2 ≤ (anns.filter (Tree.isRequest names)).length) :
    Search.of names anns = .several ((anns.filter (Tree.isRequest names)).map Tree.span) := by
  rw [← map_fst_candidates] at h ⊢
  unfold Search.of
  split
  · rename_i hc
    simp [hc] at h
  · rename_i hc
    simp [hc] at h
  · rw [List.map_map]
    rfl

theorem of_of_malformed {a : Tree} {arity : Nat} (h : anns.filter (Tree.isRequest names) = [a])
    (hm : AnnotationMatch.of names a = .malformed arity) :
    Search.of names anns = .malformed arity a.span := by
  obtain ⟨index, hc, -⟩ := candidates_of_single h
  simp only [Search.of, hc, hm]

theorem of_of_extension {a payload : Tree} {kind : ExtensionKind} {isOld : Bool}
    (h : anns.filter (Tree.isRequest names) = [a])
    (hm : AnnotationMatch.of names a = .extension kind isOld payload) :
    ∃ index, Search.of names anns = .found { kind, isOld, payload, index, span := a.span } ∧
      anns.eraseIdx index = anns.filter fun a => !a.isRequest names := by
  obtain ⟨index, hc, hrest⟩ := candidates_of_single h
  exact ⟨index, by simp only [Search.of, hc, hm], hrest⟩

end Search

/-! ## 2. The table -/

/-- From `s` to `s'`, reports with these marks are put down, in this order, and nothing else is
done. -/
def ReportsOnly (s : ExpandState) (marks : List Mark) (s' : ExpandState) : Prop :=
  ∃ found, s' = { s with findings := s.findings ++ found } ∧
    ∀ names i, (found.map (Finding.diagnostic names i)).map Diagnostic.mark = marks

/-- The member `t` stays, after these reports: it is expanded inside, and what stands in front of it
is as before. -/
def Keeps (v : Vocabulary) (t : Tree) (marks : List Mark) (s : ExpandState)
    (out : List Tree × ExpandState) : Prop :=
  ∃ s₁, ReportsOnly s marks s₁ ∧
    let inside := (expandUnit v t).run s₁
    out = ([inside.1], inside.2) ∧ inside.1.methodHead? = t.methodHead?

/-- A member goes, and there is one report. -/
def Drops (mark : Mark) (s : ExpandState) (out : List Tree × ExpandState) : Prop :=
  out.1 = [] ∧ ReportsOnly s [mark] out.2

/-- An extension is synthesised.  If that finds a fault, nothing takes its place.  Otherwise its
code does, which is expanded in turn: a wrapper class, and a companion if it is staged. -/
def Replaces (v : Vocabulary) (e : Extension) (s : ExpandState) (out : List Tree × ExpandState) :
    Prop :=
  let synthesis := (e.synthesize v).run s
  ∃ found, synthesis.2.findings = s.findings ++ found ∧
    ((∃ fault, Finding.fault fault ∈ found) → out = ([], synthesis.2)) ∧
    ((∀ fault, Finding.fault fault ∉ found) → ∃ target trees, synthesis.1 = some trees ∧
      e.payload.asTarget? = .ok target ∧ e.Yields v target trees ∧
      trees.map Tree.kind = (match e.kind with
        | .staged => [.classDef, .objectDef]
        | .runtime => [.classDef]) ∧
      out = (trees.mapM (expandUnit v)).run synthesis.2 ∧
      out.1.map Tree.outline = trees.map Tree.outline)

/-- The table of what becomes of a method as a member. -/
structure Decides (v : Vocabulary) (scope : Scope) (t : Tree) (d : MethodDef Tree Tree)
    (s : ExpandState) (out : List Tree × ExpandState) : Prop where
  /-- Nothing is asked for. -/
  plain : d.requests v.annotations = [] → Keeps v t [] s out
  /-- More than one thing is asked for. -/
  several : 2 ≤ (d.requests v.annotations).length →
    Drops (.severalAnnotations,
      (t.span, true) :: (d.requests v.annotations).map fun a => (a.span, false)) s out
  malformed : ∀ {a arity}, d.requests v.annotations = [a] →
    AnnotationMatch.of v.annotations a = .malformed arity →
    Drops (.annotationArity, [(a.span, true)]) s out
  /-- A staged extension out of place, in the present spelling. -/
  outOfPlace : ∀ {a payload}, d.requests v.annotations = [a] →
    AnnotationMatch.of v.annotations a = .extension .staged false payload → scope = .enclosed →
    Keeps v t [(.notExpanded, [(a.span, true)])] s out
  /-- A staged extension out of place, in the old spelling. -/
  outOfPlaceOld : ∀ {a payload}, d.requests v.annotations = [a] →
    AnnotationMatch.of v.annotations a = .extension .staged true payload → scope = .enclosed →
    Drops (.deprecatedSpelling, [(a.span, true)]) s out
  /-- An extension in its place; the old spelling is reported and accepted. -/
  inPlace : ∀ {a kind isOld payload}, d.requests v.annotations = [a] →
    AnnotationMatch.of v.annotations a = .extension kind isOld payload →
    ¬ (scope = .enclosed ∧ kind = .staged) →
    ∃ s₁, ReportsOnly s (if isOld then [(.deprecatedSpelling, [(a.span, true)])] else []) s₁ ∧
      Replaces v { kind, payload, method := d.withoutRequests v.annotations, span := t.span } s₁ out

/-! ## 3. The table is right -/

theorem reportsOnly_append (s : ExpandState) (found : List Finding) :
    ReportsOnly s (found.map Finding.mark) { s with findings := s.findings ++ found } :=
  ⟨found, rfl, fun names i => map_mark_diagnostic names i found⟩

/-- What is expanded keeps its outline. -/
theorem outline_run_mapM_expandUnit (v : Vocabulary) : ∀ (trees : List Tree) (s : ExpandState),
    ((trees.mapM (expandUnit v)).run s).1.map Tree.outline = trees.map Tree.outline
  | [], _ => rfl
  | t :: trees, s => by
    rw [run_mapM_cons, List.map_cons, List.map_cons, (run_expandUnit v t s).1,
      outline_run_mapM_expandUnit v trees]

/-- The code of an extension: a wrapper class, and a companion if it is staged. -/
theorem Extension.kind_of_yields {v : Vocabulary} {e : Extension} {target : Target}
    {trees : List Tree} (h : e.Yields v target trees) : trees.map Tree.kind =
      match e.kind with
      | .staged => [.classDef, .objectDef]
      | .runtime => [.classDef] := by
  unfold Extension.Yields at h
  cases hk : e.kind with
  | staged =>
    rw [hk] at h
    obtain ⟨names, rfl⟩ := h
    rfl
  | runtime =>
    rw [hk] at h
    obtain ⟨group, rfl⟩ := h
    rfl

/-- An extension that is expanded has no fault among its findings. -/
theorem Extension.fault_notMem_findings (e : Extension) (fault : Fault) :
    Finding.fault fault ∉ e.findings := by
  unfold Extension.findings
  split <;> simp

section

variable {v : Vocabulary} {scope : Scope} {t : Tree} (s : ExpandState)

theorem keeps_of_judge {remarks : List Remark} (h : judge v scope t = .keep remarks) :
    Keeps v t ((remarks.map .remark).map Finding.mark) s ((expandMemberIn v scope t).run s) := by
  refine ⟨_, reportsOnly_append s _, ?_, ?_⟩
  · exact run_expandMember_of_keep _ _ _ h
  · exact Tree.methodHead?_of_outline (run_expandUnit v t _).1

theorem drops_of_judge {fault : Fault} (h : judge v scope t = .drop [fault]) :
    Drops fault.mark s ((expandMemberIn v scope t).run s) := by
  rw [expandMemberIn, run_expandMember_of_drop _ _ _ h]
  exact ⟨rfl, reportsOnly_append s [.fault fault]⟩

/-- An extension that is replaced is synthesised without a fault. -/
theorem replaces_of_extend {spelling : List Fault} {e : Extension} {target : Target}
    (h : judge v scope t = .extend spelling e target) :
    Replaces v e { s with findings := s.findings ++ spelling.map .fault }
      ((expandMemberIn v scope t).run s) := by
  let s₁ : ExpandState := { s with findings := s.findings ++ spelling.map .fault }
  obtain ⟨-, -, -, -, -, htarget, hfaults⟩ := judge_extend h
  have hsynthesis : (e.synthesize v).run s₁ =
      (some ((e.generate v target).run s₁).1, ((e.generate v target).run s₁).2) := by
    rw [e.synthesize_of_ok htarget hfaults]
    rfl
  have hyields := e.yields_generate v target s₁
  have hout := run_expandMember_of_extend (expandUnit v) (expandUnit v t) s h
  refine ⟨e.findings, ?_, ?_, fun _ => ?_⟩
  · rw [hsynthesis]
    exact e.findings_generate v target s₁
  · rintro ⟨fault, hfault⟩
    exact absurd hfault (e.fault_notMem_findings fault)
  · rw [hsynthesis]
    refine ⟨target, _, rfl, htarget, hyields, e.kind_of_yields hyields, hout, ?_⟩
    rw [expandMemberIn, hout]
    exact outline_run_mapM_expandUnit v _ _

/-- An extension that is dropped is synthesised, and that finds a fault. -/
theorem replaces_of_drop {spelling : List Fault} {e : Extension} (hfaults : e.faults v ≠ [])
    (h : judge v scope t = .drop (spelling ++ e.faults v)) :
    Replaces v e { s with findings := s.findings ++ spelling.map .fault }
      ((expandMemberIn v scope t).run s) := by
  have hsynthesis := e.synthesize_of_faults hfaults
    { s with findings := s.findings ++ spelling.map .fault }
  obtain ⟨fault, hfault⟩ := List.exists_mem_of_ne_nil _ hfaults
  refine ⟨(e.faults v).map .fault, by rw [hsynthesis], fun _ => ?_, fun hno => ?_⟩
  · rw [hsynthesis, expandMemberIn, run_expandMember_of_drop _ _ _ h, List.map_append,
      List.append_assoc]
  · exact absurd (List.mem_map_of_mem hfault) (hno fault)

/-- An extension in its place is synthesised, after a report on its spelling if that is old. -/
theorem replaces_of_found {d : MethodDef Tree Tree} {f : Found}
    (h : judge v scope t = judgeFound v scope d t.span f)
    (hplace : ¬ (scope = .enclosed ∧ f.kind = .staged)) :
    let spelling : List Fault := if f.isOld then [.oldSpelling f.span none] else []
    Replaces v (.ofFound f d t.span) { s with findings := s.findings ++ spelling.map .fault }
      ((expandMemberIn v scope t).run s) := by
  intro spelling
  rw [judgeFound, if_neg hplace] at h
  dsimp only at h
  split at h
  · exact replaces_of_extend s h
  · rename_i hbad
    refine replaces_of_drop s (fun hfaults => ?_) h
    obtain ⟨target, htarget, -⟩ := Extension.run_synthesize_of_sound hfaults s
    exact hbad target htarget hfaults

/-- **The table is right** for each method that is met as a member. -/
theorem decides_expandMemberIn {d : MethodDef Tree Tree} (ht : t.shape = .methodDef d) :
    Decides v scope t d s ((expandMemberIn v scope t).run s) where
  plain := by
    intro hnone
    have hj : judge v scope t = .keep [] := by
      simp only [judge, ht, Search.of_of_none hnone]
    exact keeps_of_judge s hj
  several := by
    intro hseveral
    have hj : judge v scope t =
        .drop [.several d.name t.span ((d.requests v.annotations).map Tree.span)] := by
      simp only [judge, ht, Search.of_of_several hseveral, MethodDef.requests]
    have hdrops := drops_of_judge s hj
    rwa [Fault.mark, List.map_map] at hdrops
  malformed := by
    intro a arity hsingle hm
    have hj : judge v scope t = .drop [.malformed arity a.span] := by
      simp only [judge, ht, Search.of_of_malformed hsingle hm]
    exact drops_of_judge s hj
  outOfPlace := by
    intro a payload hsingle hm hscope
    obtain ⟨index, hsearch, -⟩ := Search.of_of_extension hsingle hm
    have hj : judge v scope t = .keep [.notExpanded d.name a.span] := by
      simp [judge, ht, hsearch, judgeFound, hscope]
    exact keeps_of_judge s hj
  outOfPlaceOld := by
    intro a payload hsingle hm hscope
    obtain ⟨index, hsearch, -⟩ := Search.of_of_extension hsingle hm
    have hj : judge v scope t = .drop [.oldSpelling a.span (some d.name)] := by
      simp [judge, ht, hsearch, judgeFound, hscope]
    exact drops_of_judge s hj
  inPlace := by
    intro a kind isOld payload hsingle hm hplace
    obtain ⟨index, hsearch, hrest⟩ := Search.of_of_extension hsingle hm
    let f : Found := { kind, isOld, payload, index, span := a.span }
    let spelling : List Fault := if isOld then [.oldSpelling a.span none] else []
    have hj : judge v scope t = judgeFound v scope d t.span f := by
      simp only [judge, ht, hsearch, f]
    have hextension : Extension.ofFound f d t.span =
        { kind, payload, method := d.withoutRequests v.annotations, span := t.span } := by
      rw [Extension.ofFound, MethodDef.withoutRequests, ← hrest]
    have hmark : (spelling.map .fault).map Finding.mark =
        if isOld then [(.deprecatedSpelling, [(a.span, true)])] else [] := by
      cases isOld <;> rfl
    refine ⟨_, hmark ▸ reportsOnly_append s (spelling.map .fault), ?_⟩
    rw [← hextension]
    exact replaces_of_found s hj hplace

/-- What the table says takes the place of a member.  The member is met in the state that those
before it have led to, and those after it in the state that it leads to. -/
theorem run_expandMembers_of_method {d : MethodDef Tree Tree} (ht : t.shape = .methodDef d)
    (ms₁ ms₂ : List Tree) :
    let before := (expandMembers v scope ms₁).run s
    ∃ out, Decides v scope t d before.2 out ∧
      let after := (expandMembers v scope ms₂).run out.2
      (expandMembers v scope (ms₁ ++ t :: ms₂)).run s =
        (before.1 ++ out.1 ++ after.1, after.2) := by
  intro before
  refine ⟨_, decides_expandMemberIn before.2 ht, ?_⟩
  simp only [run_expandMembers_append, run_expandMembers_cons, before, List.append_assoc]

end

/-! ## 4. The main statement -/

/-- **What becomes of a member, case by case.**  A method among other members, in any tree: the tree
is expanded slot by slot, the members one after the other, and what the table says takes the place
of the method.  All else stays as it is. -/
theorem expandUnit_decides {v : Vocabulary} {u t : Tree} {d : MethodDef Tree Tree} {scope : Scope}
    {slots₁ slots₂ : List (Slot Tree)} {ms₁ ms₂ : List Tree}
    (hu : u.slots = slots₁ ++ .members scope (ms₁ ++ t :: ms₂) :: slots₂)
    (ht : t.shape = .methodDef d) (s : ExpandState) :
    let first := (slots₁.mapM (expandSlot v)).run s
    let before := (expandMembers v scope ms₁).run first.2
    ∃ out, Decides v scope t d before.2 out ∧
      let after := (expandMembers v scope ms₂).run out.2
      let last := (slots₂.mapM (expandSlot v)).run after.2
      ∃ u', (expandUnit v u).run s = (u', last.2) ∧ u'.outline = u.outline ∧
        u'.slots = first.1 ++ .members scope (before.1 ++ out.1 ++ after.1) :: last.1 := by
  intro first before
  obtain ⟨out, hdecides, hmembers⟩ := run_expandMembers_of_method first.2 ht ms₁ ms₂
  obtain ⟨houtline, hslots⟩ := run_expandUnit v u s
  have hslot : (expandSlot v (.members scope (ms₁ ++ t :: ms₂))).run first.2 =
      (.members scope ((expandMembers v scope (ms₁ ++ t :: ms₂)).run first.2).1,
        ((expandMembers v scope (ms₁ ++ t :: ms₂)).run first.2).2) := rfl
  rw [hu, run_mapM_append, run_mapM_cons, hslot, hmembers, Prod.mk.injEq] at hslots
  exact ⟨out, hdecides, _, Prod.ext rfl hslots.2.symm, houtline, hslots.1.symm⟩

/-- A method with a request for a staged extension, another annotation and a malformed request, in
an object: nothing is left of it but one report, which points to the method and to both requests. -/
theorem expandUnit_decides_several :
    let v := Vocabulary.usual
    let annotation (name : Name) (args : List Tree) (span : Span) :=
      Tree.apply (.ofShape (.new (.typeIdent name span)) span) args span
    let t := Tree.methodDef
      { mods := { annotations := [
          annotation v.annotations.staged [.typeIdent v.list ⟨5, 6⟩] ⟨1, 7⟩,
          annotation v.list [] ⟨8, 12⟩,
          annotation v.annotations.runtime [] ⟨13, 20⟩] }
        name := v.apply, tparams := [], groups := [[]], result := none
        body := .ident v.selfName ⟨30, 34⟩ } ⟨1, 35⟩
    let u := Tree.objectDef { mods := {}, name := v.expr, body := [t] } ⟨0, 40⟩
    let s : ExpandState := { supply := { interner := .new } }
    ∃ u' s', (expandUnit v u).run s = (u', s') ∧ u'.slots = [.members .container []] ∧
      ReportsOnly s [(.severalAnnotations,
        [(⟨1, 35⟩, true), (⟨1, 7⟩, false), (⟨13, 20⟩, false)])] s' := by
  intro v annotation t u s
  have hu : u.slots = [] ++ .members .container ([] ++ t :: []) :: [] := rfl
  obtain ⟨out, hdecides, u', hrun, -, hslots⟩ := expandUnit_decides (v := v) hu rfl s
  obtain ⟨hnone, hreports⟩ := hdecides.several (by decide)
  refine ⟨u', out.2, hrun, ?_, hreports⟩
  rw [hslots, hnone]
  rfl

end Enrich
