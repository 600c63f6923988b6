import Enrich.Proofs.Verdict
/-!
# Generated code is less deep than the member it replaces

`Tree.expansionDepth` counts the annotations of methods that stand inside one another.  A member is
replaced because one of its annotations asks for it; in the code that takes its place the forwarder
has lost that annotation and the generator has none, and everything inside them is as deep as it was
in the member.  So each round into generated code goes down by one at least, and the depth of a unit
is rounds enough.

* `Tree.expansionDepth_le_iff`: the depth is bounded child by child.
* `Tree.expansionDepth_spliceReserved`: splicing keeps the depth.
* `depth_lt_of_extend`: the main statement.
-/

namespace Enrich

/-! ## 1. The depth of a node -/

theorem foldr_max_le_iff {k : Nat} : ∀ {l : List Nat}, l.foldr max 0 ≤ k ↔ ∀ n ∈ l, n ≤ k
  | [] => by simp
  | n :: l => by rw [List.foldr_cons, Nat.max_le, foldr_max_le_iff, List.forall_mem_cons]

namespace Tree

/-- **The depth is bounded child by child.** -/
theorem expansionDepth_le_iff {t : Tree} {k : Nat} :
    t.expansionDepth ≤ k ↔ t.methodAnnotations ≤ k ∧
      ∀ c ∈ t.shape.children, t.methodAnnotations + c.expansionDepth ≤ k := by
  rw [expansionDepth_eq]
  constructor
  · intro h
    refine ⟨by omega, fun c hc => ?_⟩
    have hle := foldr_max_le_iff.mp (Nat.le_refl _) _ (List.mem_map_of_mem (f := expansionDepth) hc)
    omega
  · rintro ⟨hm, hc⟩
    have hle : (t.shape.children.map expansionDepth).foldr max 0 ≤ k - t.methodAnnotations := by
      rw [foldr_max_le_iff]
      intro n hn
      obtain ⟨c, hc', rfl⟩ := List.mem_map.mp hn
      have := hc c hc'
      omega
    omega

/-- A node is at least as deep as what is in it, and its own annotations come on top. -/
theorem depth_child_le {t c : Tree} (h : c ∈ t.shape.children) :
    t.methodAnnotations + c.expansionDepth ≤ t.expansionDepth :=
  (expansionDepth_le_iff.mp (Nat.le_refl _)).2 c h

/-- A node that is no method is as deep as the deepest of its children. -/
theorem expansionDepth_le_iff_of_not_method {t : Tree} {k : Nat}
    (h : ∀ d, t.shape ≠ .methodDef d) :
    t.expansionDepth ≤ k ↔ ∀ c ∈ t.shape.children, c.expansionDepth ≤ k := by
  have h0 : t.methodAnnotations = 0 := by
    unfold methodAnnotations
    split
    · rename_i d hd
      exact absurd hd (h d)
    · rfl
  simp [expansionDepth_le_iff, h0]

/-- A node that is no method has depth only through what is in it. -/
theorem depth_eq_zero_of_children {t : Tree} (h : ∀ d, t.shape ≠ .methodDef d)
    (hc : ∀ c ∈ t.shape.children, c.expansionDepth = 0) : t.expansionDepth = 0 :=
  Nat.le_zero.mp ((expansionDepth_le_iff_of_not_method h).mpr fun c hm => Nat.le_zero.mpr (hc c hm))

/-! ## 2. Types and splices -/

/-- Splicing keeps the depth. -/
theorem expansionDepth_spliceReserved (r : ReservedNames) (t : Tree) :
    (t.spliceReserved r).expansionDepth = t.expansionDepth := by
  induction t using induction with
  | step t _ ih =>
    by_cases h : ∀ n, t.shape = .ident n → r.contains n = false
    · have hm : (⟨t.shape.map (spliceReserved r), t.span, t.ty⟩ : Tree).methodAnnotations =
          t.methodAnnotations := by
        simp only [methodAnnotations]
        cases t.shape <;> simp [Shape.map, Shape.bimap, MethodDef.bimap, Modifiers.map]
      rw [spliceReserved_of_not_ident h, expansionDepth_eq, expansionDepth_eq (t := t), hm]
      simp only [Shape.map, Shape.children_bimap, List.map_map, Function.comp_def]
      rw [List.map_congr_left ih]
    · simp only [Classical.not_forall, Bool.not_eq_false] at h
      obtain ⟨n, hn, hr⟩ := h
      rw [spliceReserved_of_ident hn hr, expansionDepth_eq]
      simp [methodAnnotations, splice, ofShape, Shape.children]

end Tree

/-- What a list is mapped to element by element comes from its elements. -/
theorem exists_of_mapM_ok {α β ε : Type} {f : α → Except ε β} :
    ∀ {l : List α} {l' : List β}, l.mapM f = .ok l' → ∀ b ∈ l', ∃ a ∈ l, f a = .ok b
  | [], l', h => by simp_all [pure, Except.pure]
  | a :: l, l', h => by
    rw [List.mapM_cons] at h
    cases ha : f a with
    | error e => simp [ha, bind, Except.bind] at h
    | ok b =>
      cases hl : l.mapM f with
      | error e => simp [ha, hl, bind, Except.bind] at h
      | ok bs =>
        simp only [ha, hl, bind, Except.bind, pure, Except.pure, Except.ok.injEq] at h
        subst h
        simp only [List.mem_cons, forall_eq_or_imp, exists_eq_or_imp]
        exact ⟨.inl ha, fun b' hb' => .inr (exists_of_mapM_ok hl b' hb')⟩

namespace Tree

/-! ## 3. Code that the expander builds -/

section

variable (n : Name) (sp : Span) (t : Tree) (ts : List Tree)

@[simp] theorem depth_ident : (ident n sp).expansionDepth = 0 :=
  depth_eq_zero_of_children (by simp [ident, ofShape]) (by simp [ident, ofShape, Shape.children])

@[simp] theorem depth_typeIdent : (typeIdent n sp).expansionDepth = 0 :=
  depth_eq_zero_of_children (by simp [typeIdent, ofShape])
    (by simp [typeIdent, ofShape, Shape.children])

@[simp] theorem depth_wildcard : (wildcard sp).expansionDepth = 0 :=
  depth_eq_zero_of_children (by simp [wildcard, ofShape])
    (by simp [wildcard, ofShape, Shape.children])

@[simp] theorem depth_select : (select t n sp).expansionDepth = t.expansionDepth := by
  rw [expansionDepth_eq]
  simp [select, ofShape, methodAnnotations, Shape.children]

@[simp] theorem depth_bind : (bind n t sp).expansionDepth = t.expansionDepth := by
  rw [expansionDepth_eq]
  simp [bind, ofShape, methodAnnotations, Shape.children]

@[simp] theorem depth_quote : (quote t sp).expansionDepth = t.expansionDepth := by
  rw [expansionDepth_eq]
  simp [quote, ofShape, methodAnnotations, Shape.children]

@[simp] theorem depth_apply : (apply t ts sp).expansionDepth =
    max t.expansionDepth ((ts.map expansionDepth).foldr max 0) := by
  rw [expansionDepth_eq]
  simp [apply, ofShape, methodAnnotations, Shape.children]

@[simp] theorem depth_typeApply : (typeApply t ts sp).expansionDepth =
    max t.expansionDepth ((ts.map expansionDepth).foldr max 0) := by
  rw [expansionDepth_eq]
  simp [typeApply, ofShape, methodAnnotations, Shape.children]

@[simp] theorem depth_appliedType : (appliedType t ts sp).expansionDepth =
    max t.expansionDepth ((ts.map expansionDepth).foldr max 0) := by
  rw [expansionDepth_eq]
  simp [appliedType, ofShape, methodAnnotations, Shape.children]

end

/-- There are no methods in a type. -/
theorem depth_of_asType? {t u : Tree} (h : t.asType? = .ok u) : u.expansionDepth = 0 := by
  induction t using Tree.induction generalizing u with
  | step t _ ih =>
    obtain ⟨s, sp, ty⟩ := t
    rw [asType?_eq] at h
    cases s with
    | ident n | typeIdent n =>
      cases h
      exact depth_typeIdent n sp
    | typeApply fn args | appliedType fn args =>
      cases hf : fn.asType? with
      | error e => simp [hf, Bind.bind, Except.bind] at h
      | ok fn' =>
        cases ha : args.mapM asType? with
        | error e => simp [hf, ha, Bind.bind, Except.bind] at h
        | ok args' =>
          simp only [hf, ha, Bind.bind, Except.bind, Pure.pure, Except.pure, Except.ok.injEq] at h
          have hargs : (args'.map expansionDepth).foldr max 0 ≤ 0 := by
            rw [foldr_max_le_iff]
            intro k hk
            obtain ⟨b, hb, rfl⟩ := List.mem_map.mp hk
            obtain ⟨a, hm, hab⟩ := exists_of_mapM_ok ha b hb
            exact Nat.le_of_eq (ih a (List.mem_cons_of_mem _ hm) hab)
          rw [← h, depth_appliedType, ih fn List.mem_cons_self hf]
          omega
    | _ => contradiction

/-- A target is a type, and types hold no methods. -/
theorem depth_of_asTarget? {t : Tree} {target : Target} (h : t.asTarget? = .ok target) :
    target.tpe.expansionDepth = 0 := by
  unfold asTarget? at h
  cases ht : t.asType? with
  | error e => simp [ht, Bind.bind, Except.bind] at h
  | ok u =>
    simp only [ht, Bind.bind, Except.bind, Pure.pure, Except.pure, Except.ok.injEq] at h
    rw [← h]
    exact depth_of_asType? ht

end Tree

/-! ## 4. Generated code -/

/-- The code that can take the place of an extension, whatever names are generated for it. -/
def Extension.Yields (v : Vocabulary) (e : Extension) (target : Target) (trees : List Tree) :
    Prop :=
  match e.kind with
  | .staged => ∃ names, trees = e.stagedTrees v target names
  | .runtime => ∃ group, trees = [e.runtimeTree v target group]

/-- What is generated is one of the two forms of code, for some names. -/
theorem Extension.yields_generate (v : Vocabulary) (e : Extension) (target : Target)
    (s : ExpandState) : e.Yields v target ((e.generate v target).run s).1 := by
  unfold Yields
  cases hk : e.kind with
  | staged =>
    simp only [generate, hk]
    exact ⟨_, rfl⟩
  | runtime =>
    simp only [generate, hk]
    exact ⟨_, rfl⟩

theorem Tree.depth_methodDef_le {d : MethodDef Tree Tree} {sp : Span} {k : Nat}
    (h : ∀ c ∈ d.children, c.expansionDepth ≤ k) :
    (Tree.methodDef d sp).expansionDepth ≤ d.mods.annotations.length + k := by
  rw [expansionDepth_le_iff]
  have hm : (Tree.methodDef d sp).methodAnnotations = d.mods.annotations.length := rfl
  rw [hm]
  refine ⟨by omega, fun c hc => ?_⟩
  have := h c hc
  omega

namespace Generator

variable (g : Generator)

@[simp] theorem depth_member (n : Name) : (g.member n).expansionDepth = 0 := by
  simp [member]

@[simp] theorem depth_stagedType (t : Tree) :
    (g.stagedType t).expansionDepth = t.expansionDepth := by
  simp [stagedType]

@[simp] theorem depth_evidenceType (tp : TypeParam) : (g.evidenceType tp).expansionDepth = 0 := by
  simp [evidenceType]

theorem depth_takeSelfTree (n : Name) : (g.takeSelfTree n).expansionDepth = 0 := by
  refine Tree.depth_eq_zero_of_children (by simp [takeSelfTree, Tree.valueDef, Tree.ofShape]) ?_
  intro c hc
  simp only [takeSelfTree, Tree.valueDef, Tree.ofShape, ValueDef.ofInit, Shape.children,
    ValueDef.children, Option.toList_none, Option.toList_some, List.nil_append,
    List.mem_singleton] at hc
  subst hc
  refine Tree.depth_eq_zero_of_children (by simp [Tree.matchOn, Tree.ofShape]) ?_
  simp [Tree.matchOn, Tree.ofShape, Shape.children, Arm.children]

theorem depth_bindSelf (n : Name) {target : Target} (h : target.tpe.expansionDepth = 0) :
    (g.bindSelf n target).expansionDepth = 0 := by
  refine Tree.depth_eq_zero_of_children (by simp [bindSelf, Tree.valueDef, Tree.ofShape]) ?_
  simp [bindSelf, Tree.valueDef, Tree.ofShape, ValueDef.ofInit, Shape.children,
    ValueDef.children, h]

end Generator

namespace Extension

variable {v : Vocabulary} {e : Extension} {target : Target} {k : Nat}

/-- The wrapper class is no deeper than the method in it. -/
theorem depth_wrapperClass_le {group : Name} {outer : List TypeParam} {d : MethodDef Tree Tree}
    {sp : Span} (ht : target.tpe.expansionDepth = 0) (hd : ∀ c ∈ d.children, c.expansionDepth ≤ k) :
    (wrapperClass v group outer target d sp).expansionDepth ≤ d.mods.annotations.length + k := by
  rw [Tree.expansionDepth_le_iff_of_not_method
    (by simp [wrapperClass, Tree.classDef, Tree.ofShape])]
  intro c hc
  simp only [wrapperClass, Tree.classDef, Tree.ofShape, Shape.children, ClassDef.children,
    ValueDef.param, ValueDef.children, Option.toList_some, Option.toList_none, List.append_nil,
    List.flatMap_cons, List.flatMap_nil, List.mem_append, List.mem_singleton] at hc
  rcases hc with rfl | rfl
  · omega
  · exact Tree.depth_methodDef_le hd

/-- The code in a forwarder is that of the method, but for the body, which has no method in it. -/
theorem children_forwarder {group : Name} {c : Tree}
    (h : c ∈ (e.forwarder target group).children) :
    c ∈ e.method.children ∨ c.expansionDepth = 0 := by
  simp only [forwarder, MethodDef.children, MethodDef.params, List.mem_append,
    List.mem_singleton] at h ⊢
  rcases h with h | h | rfl
  · exact .inl (.inl h)
  · exact .inl (.inr (.inl h))
  · exact .inr (by simp)

theorem depth_forwarder_le (group : Name) (h : ∀ c ∈ e.method.children, c.expansionDepth ≤ k) :
    ∀ c ∈ (e.forwarder target group).children, c.expansionDepth ≤ k := by
  intro c hc
  rcases children_forwarder hc with hc | hc
  · exact h c hc
  · omega

theorem depth_generatedBody (v : Vocabulary) (e : Extension) :
    (e.generatedBody v).expansionDepth = e.method.body.expansionDepth := by
  unfold generatedBody
  split
  · rfl
  · simp [Tree.expansionDepth_spliceReserved]

/-- The parameters of a generator: the context, the parameters of the method with staged types, and
the evidence. -/
theorem params_generator (v : Vocabulary) (e : Extension) (target : Target) (names : StagedNames) :
    let g : Generator := { words := v, context := names.context, span := e.span }
    (e.generator v target names).params =
      implicitParam names.context (.typeIdent v.context e.span) e.span ::
        (e.method.params.map g.stagedParam ++
          (evidenceGroups g (splitTypeParams e.method.tparams target).2
            names.evidence).flatten) := by
  simp [generator, MethodDef.params, List.map_flatten]

theorem depth_evidenceGroups (g : Generator) :
    ∀ (inner : List TypeParam) (names : List Name),
      ∀ c ∈ (evidenceGroups g inner names).flatten.flatMap ValueDef.children,
        c.expansionDepth = 0 := by
  intro inner names c hc
  unfold evidenceGroups at hc
  split at hc
  · simp at hc
  · simp only [List.flatten_cons, List.flatten_nil, List.append_nil, List.mem_flatMap] at hc
    obtain ⟨p, hp, hc⟩ := hc
    obtain ⟨i, hi, rfl⟩ := List.mem_iff_getElem.mp hp
    simp only [List.getElem_zipWith, implicitParam, ValueDef.param, ValueDef.children,
      Option.toList_some, Option.toList_none, List.append_nil, List.mem_singleton] at hc
    rw [hc, Generator.depth_evidenceType]

/-- The code in a staged parameter is that of the parameter, its type being that of a staged
value. -/
theorem children_stagedParam (g : Generator) {p : ValueDef Tree Tree} {c : Tree}
    (h : c ∈ (g.stagedParam p).children) : ∃ c' ∈ p.children, c = c' ∨ c = g.stagedType c' := by
  simp only [Generator.stagedParam, ValueDef.children, List.mem_append, Option.mem_toList,
    Option.map_eq_some_iff] at h ⊢
  rcases h with ⟨t, ht, rfl⟩ | h
  · exact ⟨t, .inl ht, .inr rfl⟩
  · exact ⟨c, .inr h, .inl rfl⟩

/-- The code in a generator: types without a method in them, the code of the method under the types
of staged values, and the body. -/
theorem children_generator {names : StagedNames} {c : Tree}
    (h : c ∈ (e.generator v target names).children) :
    let g : Generator := { words := v, context := names.context, span := e.span }
    c.expansionDepth = 0 ∨ (∃ c' ∈ e.method.children, c = c' ∨ c = g.stagedType c') ∨
      c = .block [g.takeSelfTree names.selfTree, g.bindSelf names.selfTree target]
        (e.generatedBody v) e.span := by
  intro g
  have hchild : ∀ c', c' ∈ e.method.params.flatMap ValueDef.children ∨
      c' ∈ e.method.result.toList → c' ∈ e.method.children := fun c' hc' => by
    simp only [MethodDef.children, List.mem_append]
    exact hc'.imp_right .inl
  simp only [MethodDef.children, List.mem_append, List.mem_singleton] at h
  rcases h with h | h | rfl
  · rw [params_generator] at h
    simp only [List.flatMap_cons, List.flatMap_append, List.mem_append] at h
    rcases h with h | h | h
    · simp only [implicitParam, ValueDef.param, ValueDef.children, Option.toList_some,
        Option.toList_none, List.append_nil, List.mem_singleton] at h
      exact .inl (by simp [h])
    · obtain ⟨p', hp', hc⟩ := List.mem_flatMap.mp h
      obtain ⟨p, hp, rfl⟩ := List.mem_map.mp hp'
      obtain ⟨c', hc', hcc'⟩ := children_stagedParam g hc
      exact .inr (.inl ⟨c', hchild c' (.inl (List.mem_flatMap.mpr ⟨p, hp, hc'⟩)), hcc'⟩)
    · exact .inl (depth_evidenceGroups _ _ _ c h)
  · simp only [generator, Option.mem_toList, Option.map_eq_some_iff] at h
    obtain ⟨t, ht, rfl⟩ := h
    exact .inr (.inl ⟨t, hchild t (.inr (Option.mem_toList.mpr ht)), .inr rfl⟩)
  · exact .inr (.inr rfl)

/-- What is in the generator is no deeper than what was in the method: it adds parameters, evidence
and two statements that have no depth. -/
theorem depth_generator_le (names : StagedNames) (ht : target.tpe.expansionDepth = 0)
    (h : ∀ c ∈ e.method.children, c.expansionDepth ≤ k) :
    ∀ c ∈ (e.generator v target names).children, c.expansionDepth ≤ k := by
  intro c hc
  rcases children_generator hc with hc | ⟨c', hc', rfl | rfl⟩ | rfl
  · omega
  · exact h _ hc'
  · rw [Generator.depth_stagedType]
    exact h c' hc'
  · have hbody := h e.method.body (by simp [MethodDef.children])
    rw [Tree.expansionDepth_le_iff_of_not_method (by simp [Tree.block, Tree.ofShape])]
    simp [Tree.block, Tree.ofShape, Shape.children, Generator.depth_takeSelfTree,
      Generator.depth_bindSelf, ht, depth_generatedBody, hbody]

/-- **What replaces an extension is no deeper than its method without the annotation.** -/
theorem depth_of_yields {trees : List Tree} (hy : e.Yields v target trees)
    (ht : target.tpe.expansionDepth = 0) (h : ∀ c ∈ e.method.children, c.expansionDepth ≤ k) :
    ∀ u ∈ trees, u.expansionDepth ≤ e.method.mods.annotations.length + k := by
  intro u hu
  unfold Yields at hy
  split at hy
  · obtain ⟨names, rfl⟩ := hy
    simp only [stagedTrees, List.mem_cons, List.not_mem_nil, or_false] at hu
    rcases hu with rfl | rfl
    · exact depth_wrapperClass_le ht (depth_forwarder_le names.group h)
    · rw [Tree.expansionDepth_le_iff_of_not_method (by simp [Tree.objectDef, Tree.ofShape])]
      intro c hc
      simp only [Tree.objectDef, Tree.ofShape, Shape.children, List.mem_singleton] at hc
      have hg : c.expansionDepth ≤ 0 + k := by
        rw [hc]
        exact Tree.depth_methodDef_le (depth_generator_le names ht h)
      omega
  · obtain ⟨group, rfl⟩ := hy
    rw [List.mem_singleton.mp hu]
    exact depth_wrapperClass_le ht h

end Extension

/-- **Generated code is less deep than the member it replaces.** -/
theorem depth_lt_of_extend {v : Vocabulary} {scope : Scope} {t : Tree} {spelling : List Fault}
    {e : Extension} {target : Target} {trees : List Tree}
    (h : judge v scope t = .extend spelling e target) (hy : e.Yields v target trees) :
    ∀ u ∈ trees, u.expansionDepth < t.expansionDepth := by
  intro u hu
  obtain ⟨d, f, hd, hf, rfl, ht, -⟩ := judge_extend h
  -- the annotation that was found is one that the generated code has no more
  have hlen : (d.mods.annotations.eraseIdx f.index).length + 1 = d.mods.annotations.length := by
    have := Search.index_lt_of_found hf
    rw [List.length_eraseIdx_of_lt this]
    omega
  have hm : t.methodAnnotations = d.mods.annotations.length := by
    simp [Tree.methodAnnotations, hd]
  have hc : ∀ c ∈ d.children, c.expansionDepth ≤ t.expansionDepth - t.methodAnnotations := by
    intro c hc
    have := Tree.depth_child_le (t := t) (c := c) (by rw [hd]; exact hc)
    omega
  have hle := Extension.depth_of_yields hy (Tree.depth_of_asTarget? ht) hc u hu
  have hroot : t.methodAnnotations ≤ t.expansionDepth :=
    (Tree.expansionDepth_le_iff.mp (Nat.le_refl _)).1
  simp only [Extension.ofFound] at hle
  omega

end Enrich
