import Enrich.Proofs.Interning
import Enrich.Proofs.Looks
import Enrich.Proofs.Reaching
import Enrich.Proofs.Wording
/-!
# Which names a report can speak of

All that is ever found is found in methods that ask for an extension, and a finding speaks of names
in the method, or of the receiver (`names_of_mem_findings`).  Code is generated for such methods
too.  But what asks for an extension in generated code comes from the method the code is generated
for: the forwarder has lost the annotation, the generator has none, and the other parts that are
built have no methods in them.

So if the methods of a tree that ask for an extension have certain names only (`Tree.AsksOnly`),
this passes to the code that is generated for them, whatever names that code is built with.

* `names_of_mem_findings`, `names_of_mem_findings_of_asks`: the names in a finding.
* `Tree.names_replace`: the names in a tree where something is replaced.
* `Extension.asksOnly_of_yields`: generated code.
-/

namespace Enrich

/-! ## 1. The names in a finding -/

/-- What is replaced asks for an extension. -/
theorem isRecognised_of_extend {v : Vocabulary} {scope : Scope} {t : Tree} {spelling : List Fault}
    {e : Extension} {target : Target} (h : judge v scope t = .extend spelling e target) :
    t.IsRecognised v.annotations := by
  by_contra hnot
  rw [judge_eq_keep_nil_iff.mpr hnot] at h
  contradiction

theorem Verdict.findings_rename (f : Name → Name) (x : Verdict) :
    (x.rename f).findings = x.findings.map (.rename f) := by
  cases x with
  | keep remarks | drop faults =>
    simp only [rename, findings, List.map_map]
    rfl
  | extend spelling e target =>
    have he : (e.rename f).findings = e.findings.map (.rename f) := by
      have hkind : (e.rename f).kind = e.kind := rfl
      rw [Extension.findings, hkind, Extension.findings]
      cases e.kind <;> rfl
    simp only [rename, findings, he, List.map_append, List.map_map]
    rfl

theorem Vocabulary.rename_eq_self {f : Name → Name} {v : Vocabulary}
    (h : ∀ n ∈ v.names, f n = n) : v.rename f = v := by
  simp only [names, List.forall_mem_cons] at h
  simp only [rename, AnnotationNames.rename, h]

/-- **A finding speaks of names in the member**, or of words of the expander. -/
theorem names_of_mem_findings {v : Vocabulary} {scope : Scope} {t : Tree} {x : Finding}
    (hx : x ∈ (judge v scope t).findings) : ∀ n ∈ x.names, n ∈ t.names ∨ n ∈ v.names := by
  -- change all other names: member and words stay as they are, and with them the verdict
  obtain ⟨f, hf, hfix⟩ := exists_renaming_fixing (t.names ++ v.names)
  have ht : t.rename f = t :=
    Tree.rename_eq_self_iff.mpr fun n hn => (hfix n).mpr (List.mem_append_left _ hn)
  have hv : v.rename f = v :=
    Vocabulary.rename_eq_self fun n hn => (hfix n).mpr (List.mem_append_right _ hn)
  have hverdict : (judge v scope t).findings.map (.rename f) =
      (judge v scope t).findings.map id := by
    rw [← Verdict.findings_rename, ← judge_rename hf, ht, hv, List.map_id]
  have hfixed : x.names.map f = x.names.map id := by
    rw [← Finding.names_rename, List.map_inj_left.mp hverdict x hx, id, List.map_id]
  intro n hn
  rw [← List.mem_append, ← hfix]
  exact List.map_inj_left.mp hfixed n hn

/-- If what asks for an extension has certain names only, a look finds something on these names
only. -/
theorem names_of_mem_findings_of_asks {v : Vocabulary} {scope : Scope} {t : Tree}
    {P : Name → Prop} (hv : ∀ n ∈ v.names, P n)
    (ht : t.IsRecognised v.annotations → ∀ n ∈ t.names, P n) :
    ∀ x ∈ (judge v scope t).findings, ∀ n ∈ x.names, P n := by
  intro x hx n hn
  by_cases hasks : t.IsRecognised v.annotations
  · exact (names_of_mem_findings hx n hn).elim (ht hasks n) (hv n)
  · rw [judge_eq_keep_nil_iff.mpr hasks] at hx
    exact absurd hx List.not_mem_nil

/-! ## 2. Trees where only certain names ask -/

namespace Tree

/-- The methods in the tree that ask for an extension have no other names in them than `P`
says. -/
def AsksOnly (v : Vocabulary) (P : Name → Prop) (t : Tree) : Prop :=
  ∀ u, t.Contains u → u.IsRecognised v.annotations → ∀ n ∈ u.names, P n

variable {v : Vocabulary} {P : Name → Prop} {t u : Tree}

theorem names_of_contains (h : t.Contains u) : ∀ n ∈ u.names, n ∈ t.names := by
  induction h with
  | refl => exact fun _ hn => hn
  | child _ hc ih =>
    exact fun n hn => ih n (mem_names_iff.mpr (.inr (.inr (.inr ⟨_, hc, hn⟩))))

theorem depth_of_contains (h : t.Contains u) : u.expansionDepth ≤ t.expansionDepth := by
  induction h with
  | refl => exact Nat.le_refl _
  | child _ hc ih =>
    have := depth_child_le hc
    omega

theorem asksOnly_of_names (h : ∀ n ∈ t.names, P n) : t.AsksOnly v P :=
  fun _ hu _ n hn => h n (names_of_contains hu n hn)

/-- Where there are no annotations on methods, nothing asks. -/
theorem asksOnly_of_depth (h : t.expansionDepth = 0) : t.AsksOnly v P := by
  rintro u hu ⟨d, hd, a, ha, -⟩
  have hle := depth_of_contains hu
  have hroot : u.methodAnnotations ≤ u.expansionDepth :=
    (expansionDepth_le_iff.mp (Nat.le_refl _)).1
  have hannotations : u.methodAnnotations = d.mods.annotations.length := by
    simp only [methodAnnotations, hd]
  have hnil : d.mods.annotations = [] := List.length_eq_zero_iff.mp (by omega)
  exact absurd (hnil ▸ ha) List.not_mem_nil

theorem AsksOnly.child (h : t.AsksOnly v P) {c : Tree} (hc : c ∈ t.shape.children) :
    c.AsksOnly v P :=
  fun u hu => h u (contains_iff.mpr (.inr ⟨c, hc, hu⟩))

theorem asksOnly_of_children (hnot : ¬ t.IsRecognised v.annotations)
    (h : ∀ c ∈ t.shape.children, c.AsksOnly v P) : t.AsksOnly v P := by
  intro u hu hasks
  rcases contains_iff.mp hu with rfl | ⟨c, hc, hcu⟩
  · exact absurd hasks hnot
  · exact h c hc u hcu hasks

theorem not_isRecognised_of_not_method {names : AnnotationNames}
    (h : ∀ d, t.shape ≠ .methodDef d) : ¬ t.IsRecognised names :=
  fun ⟨d, hd, _⟩ => h d hd

/-- A method whose annotations ask for nothing. -/
theorem asksOnly_methodDef {d : MethodDef Tree Tree} {sp : Span}
    (hnothing : Search.of v.annotations d.mods.annotations = .nothing)
    (h : ∀ c ∈ d.children, c.AsksOnly v P) : (methodDef d sp).AsksOnly v P := by
  refine asksOnly_of_children ?_ h
  rintro ⟨d', hd', a, ha, hrelated⟩
  obtain rfl := Shape.methodDef.inj hd'
  exact hrelated (Search.of_eq_nothing_iff.mp hnothing a ha)

/-- Replacing brings no names in but those of what is put in. -/
theorem names_replace {f : Tree → Option Tree}
    (h : ∀ {t u : Tree}, f t = some u → ∀ n ∈ u.names, n ∈ t.names ∨ P n) (t : Tree) :
    ∀ n ∈ (t.replace f).names, n ∈ t.names ∨ P n := by
  induction t using induction with
  | step t _ ih =>
    intro n hn
    cases hf : f t with
    | some u => exact h hf n (replace_of_some hf ▸ hn)
    | none =>
      rw [replace_of_none hf, mem_names_iff, Shape.map, Shape.names_bimap,
        Shape.annotations_bimap, Shape.children_bimap, List.map_id] at hn
      rw [mem_names_iff]
      rcases hn with hn | hn | hn | ⟨c', hc', hn⟩
      · exact .inl (.inl hn)
      · exact .inl (.inr (.inl hn))
      · exact .inl (.inr (.inr (.inl hn)))
      · obtain ⟨c, hc, rfl⟩ := List.mem_map.mp hc'
        exact (ih c hc n hn).imp_left fun hn => .inr (.inr (.inr ⟨c, hc, hn⟩))

/-- Splicing brings no names in. -/
theorem names_spliceReserved (r : ReservedNames) (t : Tree) :
    ∀ n ∈ (t.spliceReserved r).names, n ∈ t.names := by
  have hsplice : ∀ {t u : Tree}, t.reservedSplice? r = some u →
      ∀ n ∈ u.names, n ∈ t.names ∨ False := by
    intro t u hu n hn
    unfold reservedSplice? at hu
    split at hu
    · split at hu
      · cases hu
        rw [splice, ofShape, names_eq] at hn
        simpa [Shape.names, Shape.annotations, Shape.children] using hn
      · contradiction
    · contradiction
  exact fun n hn => (names_replace hsplice t n hn).resolve_right id

end Tree

/-! ## 3. Generated code -/

namespace Extension

variable {v : Vocabulary} {P : Name → Prop} {e : Extension} {target : Target}

theorem asksOnly_wrapperClass {group : Name} {outer : List TypeParam} {d : MethodDef Tree Tree}
    {sp : Span} (ht : target.tpe.expansionDepth = 0) (hd : (Tree.methodDef d sp).AsksOnly v P) :
    (wrapperClass v group outer target d sp).AsksOnly v P := by
  refine Tree.asksOnly_of_children (Tree.not_isRecognised_of_not_method
    (by simp [wrapperClass, Tree.classDef, Tree.ofShape])) fun c hc => ?_
  simp only [wrapperClass, Tree.classDef, Tree.ofShape, Shape.children, ClassDef.children,
    ValueDef.param, ValueDef.children, Option.toList_some, Option.toList_none, List.append_nil,
    List.flatMap_cons, List.flatMap_nil, List.mem_append, List.mem_singleton] at hc
  rcases hc with rfl | rfl
  · exact Tree.asksOnly_of_depth ht
  · exact hd

variable (hnothing : Search.of v.annotations e.method.mods.annotations = .nothing)
  (hchildren : ∀ c ∈ e.method.children, ∀ n ∈ c.names, P n)
include hchildren

theorem asksOnly_generatedBody : (e.generatedBody v).AsksOnly v P := by
  have hbody := hchildren e.method.body (by simp [MethodDef.children])
  unfold generatedBody
  split
  · exact Tree.asksOnly_of_names hbody
  · refine Tree.asksOnly_of_children
      (Tree.not_isRecognised_of_not_method (by simp [Tree.quote, Tree.ofShape])) fun c hc => ?_
    rw [List.mem_singleton.mp hc]
    exact Tree.asksOnly_of_names fun n hn => hbody n (Tree.names_spliceReserved _ _ n hn)

theorem asksOnly_generator (ht : target.tpe.expansionDepth = 0) (names : StagedNames) :
    (Tree.methodDef (e.generator v target names) e.span).AsksOnly v P := by
  refine Tree.asksOnly_methodDef rfl fun c hc => ?_
  rcases children_generator hc with hc | ⟨c', hc', rfl | rfl⟩ | rfl
  · exact Tree.asksOnly_of_depth hc
  · exact Tree.asksOnly_of_names (hchildren _ hc')
  · -- the type of staged values brings no method
    refine Tree.asksOnly_of_children (Tree.not_isRecognised_of_not_method
      (by simp [Generator.stagedType, Tree.appliedType, Tree.ofShape])) fun c hc => ?_
    rcases List.mem_cons.mp hc with rfl | hc
    · exact Tree.asksOnly_of_depth (Generator.depth_member _ _)
    · rw [List.mem_singleton.mp hc]
      exact Tree.asksOnly_of_names (hchildren c' hc')
  · refine Tree.asksOnly_of_children (Tree.not_isRecognised_of_not_method
      (by simp [Tree.block, Tree.ofShape])) fun c hc => ?_
    simp only [Tree.block, Tree.ofShape, Shape.children, List.cons_append, List.nil_append,
      List.mem_cons, List.not_mem_nil, or_false] at hc
    rcases hc with rfl | rfl | rfl
    · exact Tree.asksOnly_of_depth (Generator.depth_takeSelfTree _ _)
    · exact Tree.asksOnly_of_depth (Generator.depth_bindSelf _ _ ht)
    · exact asksOnly_generatedBody hchildren

include hnothing

theorem asksOnly_forwarder (group : Name) :
    (Tree.methodDef (e.forwarder target group) e.span).AsksOnly v P := by
  refine Tree.asksOnly_methodDef hnothing fun c hc => ?_
  rcases children_forwarder hc with hc | hc
  · exact Tree.asksOnly_of_names (hchildren c hc)
  · exact Tree.asksOnly_of_depth hc

/-- **What asks in generated code comes from the method.** -/
theorem asksOnly_of_yields {trees : List Tree} (hy : e.Yields v target trees)
    (ht : target.tpe.expansionDepth = 0) : ∀ u ∈ trees, u.AsksOnly v P := by
  intro u hu
  unfold Yields at hy
  split at hy
  · obtain ⟨names, rfl⟩ := hy
    simp only [stagedTrees, List.mem_cons, List.not_mem_nil, or_false] at hu
    rcases hu with rfl | rfl
    · exact asksOnly_wrapperClass ht (asksOnly_forwarder hnothing hchildren names.group)
    · refine Tree.asksOnly_of_children (Tree.not_isRecognised_of_not_method
        (by simp [Tree.objectDef, Tree.ofShape])) fun c hc => ?_
      rw [List.mem_singleton.mp hc]
      exact asksOnly_generator hchildren ht names
  · obtain ⟨group, rfl⟩ := hy
    rw [List.mem_singleton.mp hu]
    refine asksOnly_wrapperClass ht (Tree.asksOnly_methodDef hnothing fun c hc => ?_)
    exact Tree.asksOnly_of_names (hchildren c hc)

end Extension

/-- **What asks in the code generated for a member comes from the member.** -/
theorem asksOnly_of_extend {v : Vocabulary} {scope : Scope} {t : Tree} {P : Name → Prop}
    {spelling : List Fault} {e : Extension} {target : Target} {trees : List Tree}
    (h : judge v scope t = .extend spelling e target) (hy : e.Yields v target trees)
    (ht : t.AsksOnly v P) : ∀ u ∈ trees, u.AsksOnly v P := by
  have hnames := ht t .refl (isRecognised_of_extend h)
  obtain ⟨d, f, hd, hf, rfl, htarget, -⟩ := judge_extend h
  have hchildren : ∀ c ∈ d.children, ∀ n ∈ c.names, P n := fun c hc n hn =>
    hnames n (Tree.mem_names_iff.mpr (.inr (.inr (.inr ⟨c, by rw [hd]; exact hc, hn⟩))))
  exact Extension.asksOnly_of_yields (Search.of_eraseIdx_of_found hf) hchildren hy
    (Tree.depth_of_asTarget? htarget)

/-- What asks in what is generated in a look comes from the member. -/
theorem all_asksOnly_expand {v : Vocabulary} {t : Tree} {P : Name → Prop} (ht : t.AsksOnly v P)
    (scope : Scope) (s : ExpandState) :
    ((expand v scope t).run s).1.All (Tree.AsksOnly v P) := by
  cases hj : judge v scope t with
  | keep remarks =>
    rw [run_expand_of_keep hj]
    trivial
  | drop faults =>
    rw [run_expand_of_drop hj]
    trivial
  | extend spelling e target =>
    rw [run_expand_of_extend hj]
    exact asksOnly_of_extend hj (e.yields_generate v target _) ht

end Enrich
