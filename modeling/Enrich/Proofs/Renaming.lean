import Enrich.Proofs.Verdict
import Enrich.Tree.Names
import Mathlib.Algebra.Order.BigOperators.Group.List
import Mathlib.Algebra.Order.Group.Nat
import Mathlib.Data.List.InsertIdx
/-!
# The verdict does not depend on how names are numbered

A name is a number, and the expander does nothing with it but compare it to other names.  So if all
names are renamed, and no two of them are given the same name, the verdict on a member is the
verdict it was, renamed; and so is the code that is generated for it.

* `judge_rename`: the verdict.
* `Extension.rename_stagedTrees`, `Extension.rename_runtimeTree`: the code that is generated.
* `exists_renaming`, `exists_renaming_fixing`: a renaming can be given on a list of names.
-/

namespace Enrich

/-! ## 1. Renaming what the expander builds and looks at -/

/-- Renames a value definition with all that is in it. -/
def ValueDef.renameAll (f : Name → Name) (d : ValueDef Tree Tree) : ValueDef Tree Tree :=
  (d.bimap (.rename f) (.rename f)).rename f

/-- Renames a method with all that is in it. -/
def MethodDef.renameAll (f : Name → Name) (d : MethodDef Tree Tree) : MethodDef Tree Tree :=
  (d.bimap (.rename f) (.rename f)).rename f

/-- The same annotations under other names. -/
def AnnotationNames.rename (f : Name → Name) (names : AnnotationNames) : AnnotationNames :=
  ⟨f names.staged, f names.runtime, f names.deprecated⟩

/-- The same words under other names. -/
def Vocabulary.rename (f : Name → Name) (v : Vocabulary) : Vocabulary where
  annotations := v.annotations.rename f
  selfName := f v.selfName
  context := f v.context
  expr := f v.expr
  weakTypeTag := f v.weakTypeTag
  callPrefix := f v.callPrefix
  tree := f v.tree
  apply := f v.apply
  list := f v.list

/-- Renames the payload, which is all the code that a match holds. -/
def AnnotationMatch.rename (f : Name → Name) : AnnotationMatch → AnnotationMatch
  | .extension kind isOld payload => .extension kind isOld (payload.rename f)
  | m => m

def Found.rename (f : Name → Name) (x : Found) : Found := { x with payload := x.payload.rename f }

def Search.rename (f : Name → Name) : Search → Search
  | .found x => .found (x.rename f)
  | s => s

def Target.rename (f : Name → Name) (t : Target) : Target := ⟨t.tpe.rename f, t.names.map f⟩

def Binding.rename (f : Name → Name) (b : Binding) : Binding := { b with name := f b.name }

def ReservedNames.rename (f : Name → Name) (r : ReservedNames) : ReservedNames := ⟨r.names.map f⟩

/-- Renames a member with what was asked of it. -/
def Extension.rename (f : Name → Name) (e : Extension) : Extension :=
  { e with payload := e.payload.rename f, method := e.method.renameAll f }

def StagedNames.rename (f : Name → Name) (ns : StagedNames) : StagedNames :=
  ⟨f ns.group, f ns.context, f ns.selfTree, ns.evidence.map f⟩

/-- Renames what a fault speaks of; where it stands does not change. -/
def Fault.rename (f : Name → Name) : Fault → Fault
  | .malformed arity span => .malformed arity span
  | .several name span annotations => .several (f name) span annotations
  | .oldSpelling span removed => .oldSpelling span (removed.map f)
  | .targetNotHandled payload span => .targetNotHandled (payload.rename f) span
  | .missingResult name span => .missingResult (f name) span
  | .redeclared b => .redeclared (b.rename f)

def Remark.rename (f : Name → Name) : Remark → Remark
  | .runtimeWrapper name span => .runtimeWrapper (f name) span
  | .notExpanded name span => .notExpanded (f name) span

def Finding.rename (f : Name → Name) : Finding → Finding
  | .fault x => .fault (x.rename f)
  | .remark r => .remark (r.rename f)

/-- Renames all that a verdict will report or build from. -/
def Verdict.rename (f : Name → Name) : Verdict → Verdict
  | .keep remarks => .keep (remarks.map (.rename f))
  | .drop faults => .drop (faults.map (.rename f))
  | .extend spelling e target => .extend (spelling.map (.rename f)) (e.rename f) (target.rename f)

namespace Tree

section

variable (f : Name → Name) (n : Name) (sp : Span) (t : Tree) (ts : List Tree)

/-- Renaming a built tree renames its layer; the lemmas on the builders below are its cases. -/
theorem rename_ofShape (s : Shape Tree Tree) :
    (ofShape s sp).rename f = ofShape ((s.bimap (rename f) (rename f)).rename f) sp :=
  rename_eq f _

@[simp] theorem rename_ident : (ident n sp).rename f = ident (f n) sp := rename_ofShape f sp _

@[simp] theorem rename_typeIdent : (typeIdent n sp).rename f = typeIdent (f n) sp :=
  rename_ofShape f sp _

@[simp] theorem rename_wildcard : (wildcard sp).rename f = wildcard sp := rename_ofShape f sp _

@[simp] theorem rename_select : (select t n sp).rename f = select (t.rename f) (f n) sp :=
  rename_ofShape f sp _

@[simp] theorem rename_bind : (bind n t sp).rename f = bind (f n) (t.rename f) sp :=
  rename_ofShape f sp _

@[simp] theorem rename_quote : (quote t sp).rename f = quote (t.rename f) sp :=
  rename_ofShape f sp _

@[simp] theorem rename_splice : (splice t sp).rename f = splice (t.rename f) sp :=
  rename_ofShape f sp _

@[simp] theorem rename_apply :
    (apply t ts sp).rename f = apply (t.rename f) (ts.map (rename f)) sp :=
  rename_ofShape f sp _

@[simp] theorem rename_typeApply :
    (typeApply t ts sp).rename f = typeApply (t.rename f) (ts.map (rename f)) sp :=
  rename_ofShape f sp _

@[simp] theorem rename_appliedType :
    (appliedType t ts sp).rename f = appliedType (t.rename f) (ts.map (rename f)) sp :=
  rename_ofShape f sp _

@[simp] theorem rename_block :
    (block ts t sp).rename f = block (ts.map (rename f)) (t.rename f) sp :=
  rename_ofShape f sp _

@[simp] theorem rename_matchOn (arms : List (Arm Tree)) :
    (matchOn t arms sp).rename f = matchOn (t.rename f) (arms.map (.map (rename f))) sp :=
  rename_ofShape f sp _

@[simp] theorem rename_valueDef (d : ValueDef Tree Tree) :
    (valueDef d).rename f = valueDef (d.renameAll f) :=
  rename_ofShape f _ _

@[simp] theorem rename_methodDef (d : MethodDef Tree Tree) :
    (methodDef d sp).rename f = methodDef (d.renameAll f) sp :=
  rename_ofShape f sp _

@[simp] theorem span_rename : (t.rename f).span = t.span := by rw [rename_eq]

/-- The layer of a renamed tree: the trees in it are renamed, then the names it holds itself. -/
theorem shape_rename : (t.rename f).shape = (t.shape.bimap (rename f) (rename f)).rename f := by
  rw [rename_eq]

/-- The kind of a tree says nothing of its names. -/
@[simp] theorem kind_rename : (t.rename f).kind = t.kind := by
  rw [kind, shape_rename, kind]
  cases t.shape <;> rfl

end

end Tree

/-! ## 2. Annotations -/

section

variable {f : Name → Name} (hf : Function.Injective f) (names : AnnotationNames)

include hf in
/-- A class name asks for what it asked for.  A second name that became the first would ask for it
too, which is why the renaming must be injective. -/
theorem AnnotationNames.request?_rename (n : Name) :
    (names.rename f).request? (f n) = names.request? n := by
  simp only [request?, rename, hf.eq_iff]

theorem Tree.className?_rename (t : Tree) : (t.rename f).className? = t.className?.map f := by
  rw [className?, shape_rename, className?]
  cases t.shape <;> rfl

/-- The class and the arguments of an annotation, under other names. -/
theorem Tree.constructorCall?_rename (t : Tree) :
    (t.rename f).constructorCall? =
      t.constructorCall?.map fun call => (f call.1, call.2.map (Tree.rename f)) := by
  have hnew : ∀ (u : Tree) (args : List Tree),
      (u.rename f).className?.map (·, args.map (Tree.rename f)) =
        (u.className?.map (·, args)).map fun call => (f call.1, call.2.map (Tree.rename f)) := by
    intro u args
    rw [className?_rename]
    cases u.className? <;> rfl
  rw [constructorCall?, shape_rename, constructorCall?]
  cases t.shape with
  | apply fn args =>
    simp only [Shape.bimap, Shape.rename, shape_rename]
    cases fn.shape <;> first | rfl | exact hnew _ _
  | new tpe => exact hnew tpe []
  | _ => rfl

include hf in
/-- An annotation is recognised under other names exactly when it was. -/
theorem AnnotationMatch.of_rename (ann : Tree) :
    of (names.rename f) (ann.rename f) = (of names ann).rename f := by
  rw [of, of, Tree.constructorCall?_rename]
  cases ann.constructorCall? with
  | none => rfl
  | some call =>
    obtain ⟨name, args⟩ := call
    simp only [Option.map_some, names.request?_rename hf]
    cases names.request? name with
    | none => rfl
    | some request =>
      obtain ⟨kind, isOld⟩ := request
      match args with
      | [] => rfl
      | [payload] => rfl
      | _ :: _ :: args => simp [rename]

theorem AnnotationMatch.isExtension_rename (m : AnnotationMatch) :
    (m.rename f).isExtension = m.isExtension := by
  cases m <;> rfl

include hf in
/-- The annotations that are candidates stand where they stood. -/
theorem Search.candidates_rename (anns : List Tree) :
    candidates (names.rename f) (anns.map (.rename f)) =
      (candidates names anns).map fun c => (c.1.rename f, c.2) := by
  rw [candidates, List.zipIdx_map, List.filter_map, candidates]
  refine congrArg _ (List.filter_congr fun c _ => ?_)
  simp [AnnotationMatch.of_rename hf, AnnotationMatch.isExtension_rename]

include hf in
/-- **What the annotations ask for** is found under any names. -/
theorem Search.of_rename (anns : List Tree) :
    Search.of (names.rename f) (anns.map (.rename f)) = (Search.of names anns).rename f := by
  rw [Search.of, candidates_rename hf, Search.of]
  rcases candidates names anns with _ | ⟨⟨ann, index⟩, _ | ⟨other, others⟩⟩
  · rfl
  · simp only [List.map_cons, List.map_nil, AnnotationMatch.of_rename hf, Tree.span_rename]
    cases AnnotationMatch.of names ann <;> rfl
  · simp [rename]

end

/-! ## 3. Targets -/

/-- Renames what is yielded, by `g`, or else the tree that is refused. -/
def renameResult {α : Type} (f : Name → Name) (g : α → α) :
    Except NotAType α → Except NotAType α
  | .ok a => .ok (g a)
  | .error e => .error ⟨e.tree.rename f⟩

section

variable {f : Name → Name}

/-- A list of trees is converted, or refused at the same tree of it, if each of them is. -/
theorem mapM_renameResult {as : List Tree} (g : Tree → Except NotAType Tree)
    (h : ∀ a ∈ as, g (a.rename f) = renameResult f (.rename f) (g a)) :
    (as.map (.rename f)).mapM g = renameResult f (List.map (.rename f)) (as.mapM g) := by
  induction as with
  | nil => rfl
  | cons a as ih =>
    rw [List.map_cons, List.mapM_cons, List.mapM_cons, h a List.mem_cons_self,
      ih fun b hb => h b (List.mem_cons_of_mem _ hb)]
    cases g a with
    | error e => rfl
    | ok b => cases as.mapM g <;> rfl

/-- A payload reads as a type under any names, and is refused at the same tree. -/
theorem Tree.asType?_rename (t : Tree) :
    (t.rename f).asType? = renameResult f (Tree.rename f) t.asType? := by
  induction t using Tree.induction with
  | step t _ ih =>
    have happlied : ∀ (fn : Tree) (args : List Tree), (∀ c ∈ fn :: args,
        (c.rename f).asType? = renameResult f (Tree.rename f) c.asType?) →
        (do return appliedType (← (fn.rename f).asType?) (← (args.map (rename f)).mapM asType?)
              t.span) =
          renameResult f (rename f) (do
            return appliedType (← fn.asType?) (← args.mapM asType?) t.span) := by
      intro fn args hin
      rw [hin fn List.mem_cons_self,
        mapM_renameResult asType? fun a ha => hin a (List.mem_cons_of_mem _ ha)]
      cases fn.asType? with
      | error e => rfl
      | ok fn' =>
        cases args.mapM asType? with
        | error e => rfl
        | ok args' => simp [renameResult, Bind.bind, Except.bind, Pure.pure, Except.pure]
    rw [asType?_eq, asType?_eq, shape_rename, span_rename]
    cases hs : t.shape with
    | ident n | typeIdent n => simp [Shape.bimap, Shape.rename, renameResult]
    | typeApply fn args | appliedType fn args =>
      rw [hs] at ih
      exact happlied fn args ih
    | _ => rfl

theorem Tree.identifiers_rename (t : Tree) :
    (t.rename f).identifiers = t.identifiers.map f := by
  induction t using Tree.induction with
  | step t _ ih =>
    have hin : ((t.shape.bimap (rename f) (rename f)).rename f).children.flatMap identifiers =
        (t.shape.children.flatMap identifiers).map f := by
      rw [Shape.children_rename, Shape.children_bimap, List.flatMap_map, List.map_flatMap,
        List.flatMap_def, List.flatMap_def, List.map_congr_left ih]
    rw [identifiers_eq, identifiers_eq, shape_rename]
    cases hs : t.shape with
    | ident n | typeIdent n => rfl
    | _ =>
      rw [hs] at hin
      exact hin

/-- The target of a renamed payload has the renamed type and the renamed identifiers. -/
theorem Tree.asTarget?_rename (t : Tree) :
    (t.rename f).asTarget? = renameResult f (Target.rename f) t.asTarget? := by
  rw [asTarget?, asType?_rename, asTarget?]
  cases t.asType? with
  | error e => rfl
  | ok tpe =>
    simp [renameResult, Target.rename, identifiers_rename, Bind.bind, Except.bind, Pure.pure,
      Except.pure]

theorem contains_map (hf : Function.Injective f) (l : List Name) (n : Name) :
    (l.map f).contains (f n) = l.contains n := by
  simp [List.contains_eq_mem, List.mem_map, hf.eq_iff]

/-- The target takes the same type parameters, and leaves the same ones to the method. -/
theorem splitTypeParams_rename (hf : Function.Injective f) (tparams : List TypeParam)
    (target : Target) :
    splitTypeParams (tparams.map (.rename f)) (target.rename f) =
      ((splitTypeParams tparams target).1.map (.rename f),
        (splitTypeParams tparams target).2.map (.rename f)) := by
  refine Prod.ext ?_ ?_
  · rw [splitTypeParams_fst, splitTypeParams_fst, List.filter_map]
    refine congrArg _ (List.filter_congr fun tp _ => ?_)
    exact contains_map hf target.names tp.name
  · rw [splitTypeParams_snd, splitTypeParams_snd, List.filter_map]
    refine congrArg _ (List.filter_congr fun tp _ => ?_)
    exact congrArg _ (contains_map hf target.names tp.name)

end

/-! ## 4. Reserved names -/

section

variable {f : Name → Name} (hf : Function.Injective f)

theorem MethodDef.params_renameAll (d : MethodDef Tree Tree) :
    (d.renameAll f).params = d.params.map (.renameAll f) := by
  rw [renameAll, params_rename, params_bimap, List.map_map]
  rfl

theorem MethodDef.groups_renameAll (d : MethodDef Tree Tree) :
    (d.renameAll f).groups = d.groups.map (·.map (.renameAll f)) := by
  simp only [renameAll, rename, bimap, List.map_map, Function.comp_def]
  rfl

/-- A renamed method, field by field. -/
theorem MethodDef.renameAll_eq (d : MethodDef Tree Tree) :
    d.renameAll f = ⟨d.mods.map (.rename f), f d.name, d.tparams.map (.rename f),
      d.groups.map (·.map (.renameAll f)), d.result.map (.rename f), d.body.rename f⟩ := by
  rw [← groups_renameAll]
  rfl

include hf in
/-- The reserved names of a method.  Two parameters of one name still have one name, so the list
loses the same repetitions. -/
theorem ReservedNames.ofMethod_rename (selfName : Name) (d : MethodDef Tree Tree) :
    ofMethod (f selfName) (d.renameAll f) = (ofMethod selfName d).rename f := by
  have hstep : ∀ (ps : List (ValueDef Tree Tree)) (ns : List Name),
      (ps.map (ValueDef.renameAll f)).foldl
          (fun ns p => if ns.contains p.name then ns else ns ++ [p.name]) (ns.map f) =
        (ps.foldl (fun ns p => if ns.contains p.name then ns else ns ++ [p.name]) ns).map f := by
    intro ps
    induction ps with
    | nil => exact fun _ => rfl
    | cons p ps ih =>
      intro ns
      rw [List.map_cons, List.foldl_cons, List.foldl_cons, ← ih]
      have hname : (ValueDef.renameAll f p).name = f p.name := rfl
      rw [hname, contains_map hf]
      split <;> simp
  rw [ofMethod, MethodDef.params_renameAll, rename]
  exact congrArg _ (hstep d.params [selfName])

include hf in
theorem ReservedNames.contains_rename (r : ReservedNames) (n : Name) :
    (r.rename f).contains (f n) = r.contains n :=
  contains_map hf r.names n

theorem ValueDef.bindings_rename {α β : Type} {inside inside' : β → List Binding}
    (d : ValueDef α β) (h : ∀ c ∈ d.children, inside' c = (inside c).map (.rename f)) :
    (d.rename f).bindings inside' = (d.bindings inside).map (.rename f) := by
  have hin : d.children.flatMap inside' = (d.children.flatMap inside).map (.rename f) := by
    rw [List.map_flatMap, List.flatMap_def, List.flatMap_def, List.map_congr_left h]
  exact congrArg (_ :: ·) hin

/-- A layer binds the renamed names at the same places, if the trees in it do. -/
theorem Shape.bindings_rename {α β : Type} {inside inside' : β → List Binding} (span : Span)
    (s : Shape α β) (h : ∀ c ∈ s.children, inside' c = (inside c).map (.rename f)) :
    (s.rename f).bindings inside' span = (s.bindings inside span).map (.rename f) := by
  have htrees : ∀ cs : List β, (∀ c ∈ cs, inside' c = (inside c).map (.rename f)) →
      cs.flatMap inside' = (cs.flatMap inside).map (.rename f) := fun cs hcs => by
    rw [List.map_flatMap, List.flatMap_def, List.flatMap_def, List.map_congr_left hcs]
  have hparams : ∀ ps : List (ValueDef α β),
      (∀ c ∈ ps.flatMap ValueDef.children, inside' c = (inside c).map (.rename f)) →
      (ps.map (ValueDef.rename f)).flatMap (fun p => p.bindings inside') =
        (ps.flatMap fun p => p.bindings inside).map (.rename f) := fun ps hps => by
    rw [List.flatMap_map, List.map_flatMap, List.flatMap_def, List.flatMap_def]
    refine congrArg _ (List.map_congr_left fun p hp => ?_)
    exact p.bindings_rename fun c hc => hps c (List.mem_flatMap.mpr ⟨p, hp, hc⟩)
  cases s with
  | lambda ps b =>
    simp only [children, List.forall_mem_append] at h
    simp only [rename, bindings, List.map_append, hparams ps h.1, h.2 b (List.mem_singleton_self b)]
  | valueDef d => exact d.bindings_rename h
  | methodDef d =>
    simp only [children, MethodDef.children, List.forall_mem_append] at h
    simp only [rename, bindings, MethodDef.params_rename, hparams _ h.1, List.map_cons,
      List.map_append]
    rw [← htrees _ h.2.1, ← h.2.2 _ (List.mem_singleton_self _)]
    rfl
  | classDef d =>
    simp only [children, ClassDef.children, List.forall_mem_append] at h
    simp only [rename, bindings, ClassDef.rename, hparams _ h.1, htrees _ h.2, List.map_append]
  | objectDef d => exact congrArg (_ :: ·) (htrees d.body h)
  | bind n p =>
    simp only [rename, bindings, h p (List.mem_singleton_self p), List.map_cons]
    rfl
  | _ => exact htrees _ h

theorem Tree.bindings_rename (t : Tree) :
    (t.rename f).bindings = t.bindings.map (.rename f) := by
  induction t using Tree.induction with
  | step t _ ih =>
    rw [bindings_eq, bindings_eq t, shape_rename, span_rename, Shape.rename_bimap,
      Shape.bindings_bimap]
    exact Shape.bindings_rename t.span t.shape ih

include hf in
/-- A tree declares the renamed reserved names where it declared the reserved ones. -/
theorem Tree.redeclarations_rename (r : ReservedNames) (t : Tree) :
    (t.rename f).redeclarations (r.rename f) = (t.redeclarations r).map (.rename f) := by
  rw [redeclarations, bindings_rename, redeclarations, List.filter_map]
  refine congrArg _ (List.filter_congr fun b _ => ?_)
  exact r.contains_rename hf b.name

/-- Replacing commutes with renaming if what is put in commutes with it. -/
theorem Tree.replace_rename {g g' : Tree → Option Tree}
    (h : ∀ u : Tree, g' (u.rename f) = (g u).map (.rename f)) (t : Tree) :
    (t.rename f).replace g' = (t.replace g).rename f := by
  induction t using Tree.induction with
  | step t _ ih =>
    cases hg : g t with
    | some u => rw [replace_of_some hg, replace_of_some (u := u.rename f) (by rw [h, hg]; rfl)]
    | none =>
      have hshape : t.shape.bimap (rename f) (replace g' ∘ rename f) =
          t.shape.bimap (rename f) (rename f ∘ replace g) :=
        Shape.bimap_congr (fun _ _ => rfl) ih
      rw [replace_of_none hg, replace_of_none (by rw [h, hg]; rfl), rename_eq, rename_eq]
      simp only [Shape.map, ← Shape.rename_bimap, Shape.bimap_bimap, Function.id_comp,
        Function.comp_id, hshape]

include hf in
/-- A reference is put into a splice under other names exactly when it was. -/
theorem Tree.reservedSplice?_rename (r : ReservedNames) (t : Tree) :
    (t.rename f).reservedSplice? (r.rename f) = (t.reservedSplice? r).map (.rename f) := by
  rw [reservedSplice?, shape_rename, reservedSplice?]
  cases hs : t.shape with
  | ident n =>
    simp only [Shape.bimap, Shape.rename, r.contains_rename hf, span_rename]
    split
    · rw [Option.map_some, rename_splice]
    · rfl
  | _ => rfl

include hf in
/-- **Splicing** a renamed body splices the same references. -/
theorem Tree.spliceReserved_rename (r : ReservedNames) (t : Tree) :
    (t.rename f).spliceReserved (r.rename f) = (t.spliceReserved r).rename f :=
  replace_rename (reservedSplice?_rename hf r) t

end

/-! ## 5. The verdict -/

section

variable {f : Name → Name} (hf : Function.Injective f) (v : Vocabulary)

namespace Extension

theorem ofFound_rename (x : Found) (d : MethodDef Tree Tree) (span : Span) :
    ofFound (x.rename f) (d.renameAll f) span = (ofFound x d span).rename f := by
  have hannotations : (d.renameAll f).mods.annotations.eraseIdx x.index =
      (d.mods.annotations.eraseIdx x.index).map (.rename f) :=
    List.eraseIdx_map ..
  simp only [ofFound, rename, Found.rename, hannotations]
  rfl

/-- Whether the body is already staged is read off its kind and the flags, not off names. -/
theorem hasStagedBody_rename (e : Extension) : (e.rename f).hasStagedBody = e.hasStagedBody := by
  have hbody : (e.method.renameAll f).body = e.method.body.rename f := rfl
  have hflags : (e.method.renameAll f).mods.flags = e.method.mods.flags := rfl
  rw [hasStagedBody, rename, hbody, hflags, Tree.kind_rename, hasStagedBody]

include hf in
theorem reserved_rename (e : Extension) :
    (e.rename f).reserved (v.rename f) = (e.reserved v).rename f :=
  ReservedNames.ofMethod_rename hf v.selfName e.method

/-- A payload that is no type is at fault under any names. -/
theorem targetFaults_rename (e : Extension) :
    (e.rename f).targetFaults = e.targetFaults.map (.rename f) := by
  rw [targetFaults, targetFaults, rename, Tree.asTarget?_rename]
  cases e.payload.asTarget? with
  | ok target => rfl
  | error bad => simp [renameResult, Fault.rename, NotAType.span]

include hf in
/-- The faults of a staged method: no result type, or reserved names that it declares. -/
theorem methodFaults_rename (e : Extension) :
    (e.rename f).methodFaults (v.rename f) = (e.methodFaults v).map (.rename f) := by
  have hresult : (e.rename f).method.result.isNone = e.method.result.isNone := by
    simp [rename, MethodDef.renameAll, MethodDef.rename, MethodDef.bimap]
  have hname : (e.rename f).method.name = f e.method.name := rfl
  have hbody : (e.rename f).method.body = e.method.body.rename f := rfl
  rw [methodFaults, methodFaults, hresult, hname, hbody, hasStagedBody_rename,
    reserved_rename hf, Tree.redeclarations_rename hf, List.map_append]
  congr 1
  · split <;> rfl
  · split
    · rfl
    · rw [List.map_map, List.map_map]
      rfl

include hf in
/-- **The faults of an extension** are the same, of the renamed things. -/
theorem faults_rename (e : Extension) :
    (e.rename f).faults (v.rename f) = (e.faults v).map (.rename f) := by
  have hkind : (e.rename f).kind = e.kind := rfl
  rw [faults, faults, targetFaults_rename, hkind, methodFaults_rename hf, List.map_append]
  cases e.kind <;> rfl

end Extension

include hf in
/-- The verdict on a member whose one annotation was found. -/
theorem judgeFound_rename (scope : Scope) (d : MethodDef Tree Tree) (span : Span) (x : Found) :
    judgeFound (v.rename f) scope (d.renameAll f) span (x.rename f) =
      (judgeFound v scope d span x).rename f := by
  have hkind : (x.rename f).kind = x.kind := rfl
  have hold : (x.rename f).isOld = x.isOld := rfl
  have hspan : (x.rename f).span = x.span := rfl
  rw [judgeFound, judgeFound, hkind, hold, hspan, Extension.ofFound_rename]
  by_cases hplace : scope = .enclosed ∧ x.kind = .staged
  · rw [if_pos hplace, if_pos hplace]
    split <;> rfl
  · rw [if_neg hplace, if_neg hplace]
    have htarget : ((Extension.ofFound x d span).rename f).payload.asTarget? =
        renameResult f (.rename f) (Extension.ofFound x d span).payload.asTarget? :=
      Tree.asTarget?_rename _
    have hspelling : (if x.isOld = true then [Fault.oldSpelling x.span none] else []) =
        (if x.isOld = true then [Fault.oldSpelling x.span none] else []).map (.rename f) := by
      split <;> rfl
    simp only [htarget, Extension.faults_rename hf]
    cases (Extension.ofFound x d span).payload.asTarget? with
    | error bad => simp only [renameResult, Verdict.rename, List.map_append, ← hspelling]
    | ok target =>
      cases (Extension.ofFound x d span).faults v with
      | nil => simp only [renameResult, List.map_nil, Verdict.rename, ← hspelling]
      | cons fault faults =>
        simp only [renameResult, List.map_cons, Verdict.rename, List.map_append, ← hspelling]

include hf in
/-- **The verdict on a member** is the same under any names. -/
theorem judge_rename (scope : Scope) (t : Tree) :
    judge (v.rename f) scope (t.rename f) = (judge v scope t).rename f := by
  cases hs : t.shape with
  | methodDef d =>
    have hs' : (t.rename f).shape = .methodDef (d.renameAll f) := by
      rw [Tree.shape_rename, hs]
      rfl
    have hsearch : Search.of (v.rename f).annotations (d.renameAll f).mods.annotations =
        (Search.of v.annotations d.mods.annotations).rename f :=
      Search.of_rename hf v.annotations d.mods.annotations
    simp only [judge, hs, hs', hsearch, Tree.span_rename]
    cases Search.of v.annotations d.mods.annotations with
    | found x => exact judgeFound_rename hf v scope d t.span x
    | _ => rfl
  | _ =>
    have hmethod : ∀ d, t.shape ≠ .methodDef d := by simp [hs]
    have hmethod' : ∀ d, (t.rename f).shape ≠ .methodDef d := by
      simp [Tree.shape_rename, hs, Shape.bimap, Shape.rename]
    rw [judge_of_not_method hmethod, judge_of_not_method hmethod']
    rfl

end

/-! ## 6. Generated code -/

section

variable {f : Name → Name}

@[simp] theorem ValueDef.renameAll_ofInit (n : Name) (init : Tree) (sp : Span) :
    (ValueDef.ofInit n init sp).renameAll f = .ofInit (f n) (init.rename f) sp := rfl

@[simp] theorem renameAll_implicitParam (n : Name) (tpe : Tree) (sp : Span) :
    (implicitParam n tpe sp).renameAll f = implicitParam (f n) (tpe.rename f) sp := rfl

namespace Generator

/-- Renames the names that code is built with. -/
def rename (f : Name → Name) (g : Generator) : Generator :=
  { g with words := g.words.rename f, context := f g.context }

variable (g : Generator)

@[simp] theorem rename_member (n : Name) : (g.member n).rename f = (g.rename f).member (f n) := by
  simp [member, rename]

/-- The type that staged code is given, as a type of the renamed context. -/
@[simp] theorem rename_stagedType (t : Tree) :
    (g.stagedType t).rename f = (g.rename f).stagedType (t.rename f) := by
  simp only [stagedType, Tree.rename_appliedType, rename_member, List.map_cons, List.map_nil]
  rfl

@[simp] theorem rename_evidenceType (tp : TypeParam) :
    (g.evidenceType tp).rename f = (g.rename f).evidenceType (tp.rename f) := by
  simp only [evidenceType, Tree.rename_appliedType, rename_member, List.map_cons, List.map_nil,
    Tree.rename_typeIdent]
  rfl

/-- A parameter is staged after the renaming as before it. -/
theorem renameAll_stagedParam (p : ValueDef Tree Tree) :
    (g.stagedParam p).renameAll f = (g.rename f).stagedParam (p.renameAll f) := by
  cases ht : p.tpe <;>
    simp [stagedParam, ValueDef.renameAll, ValueDef.rename, ValueDef.bimap, ht]

/-- The statement that takes the tree of the receiver out of the call. -/
@[simp] theorem rename_takeSelfTree (n : Name) :
    (g.takeSelfTree n).rename f = (g.rename f).takeSelfTree (f n) := by
  simp only [takeSelfTree, Tree.rename_valueDef, ValueDef.renameAll_ofInit, Tree.rename_matchOn,
    Tree.rename_select, rename_member, Arm.map, Tree.rename_apply, Tree.rename_ident,
    Tree.rename_wildcard, Tree.rename_bind, List.map_cons, List.map_nil, Option.map_none]
  rfl

/-- The statement that binds the receiver to this tree. -/
@[simp] theorem rename_bindSelf (n : Name) (target : Target) :
    (g.bindSelf n target).rename f = (g.rename f).bindSelf (f n) (target.rename f) := by
  simp only [bindSelf, Tree.rename_valueDef, ValueDef.renameAll_ofInit, Tree.rename_apply,
    Tree.rename_typeApply, rename_member, Tree.rename_ident, List.map_cons, List.map_nil]
  rfl

end Generator

variable (v : Vocabulary)

/-- The wrapper class under other names: its own, those of its parameters, the target and the
method. -/
theorem rename_wrapperClass (group : Name) (outer : List TypeParam) (target : Target)
    (d : MethodDef Tree Tree) (sp : Span) :
    (wrapperClass v group outer target d sp).rename f =
      wrapperClass (v.rename f) (f group) (outer.map (.rename f)) (target.rename f)
        (d.renameAll f) sp := by
  rw [wrapperClass, Tree.classDef, Tree.rename_ofShape]
  simp only [Shape.bimap, Shape.rename, ClassDef.bimap, ClassDef.rename, Tree.rename_methodDef,
    List.map_cons, List.map_nil]
  rfl

namespace Extension

variable (hf : Function.Injective f) (e : Extension) (target : Target)

include hf in
/-- The body of the generator.  Splicing must come to the same references, hence the injectivity. -/
theorem rename_generatedBody :
    (e.generatedBody v).rename f = (e.rename f).generatedBody (v.rename f) := by
  have hbody : (e.rename f).method.body = e.method.body.rename f := rfl
  rw [generatedBody, generatedBody, hasStagedBody_rename, hbody, reserved_rename hf,
    Tree.spliceReserved_rename hf, Tree.span_rename]
  split
  · rfl
  · rw [Tree.rename_quote]

/-- There is a group of evidence under other names exactly when there was one. -/
theorem rename_evidenceGroups (g : Generator) (inner : List TypeParam) (ns : List Name) :
    (evidenceGroups g inner ns).map (·.map (.renameAll f)) =
      evidenceGroups (g.rename f) (inner.map (.rename f)) (ns.map f) := by
  rw [evidenceGroups, evidenceGroups, List.isEmpty_map]
  split
  · rfl
  · simp only [List.map_cons, List.map_nil, List.map_zipWith, List.zipWith_map,
      renameAll_implicitParam, Generator.rename_evidenceType]
    rfl

include hf in
theorem splitTypeParams_method :
    splitTypeParams (e.rename f).method.tparams (target.rename f) =
      ((splitTypeParams e.method.tparams target).1.map (.rename f),
        (splitTypeParams e.method.tparams target).2.map (.rename f)) :=
  splitTypeParams_rename hf e.method.tparams target

include hf in
/-- The generator, part by part: parameters, result, body and evidence were each renamed above. -/
theorem renameAll_generator (ns : StagedNames) :
    (e.generator v target ns).renameAll f =
      (e.rename f).generator (v.rename f) (target.rename f) (ns.rename f) := by
  let g : Generator := { words := v, context := ns.context, span := e.span }
  have hgroups : (e.rename f).method.groups = e.method.groups.map (·.map (.renameAll f)) :=
    MethodDef.groups_renameAll e.method
  have hparams : (e.method.groups.map (·.map g.stagedParam)).map (·.map (.renameAll f)) =
      (e.rename f).method.groups.map (·.map (g.rename f).stagedParam) := by
    simp [hgroups, Function.comp_def, g.renameAll_stagedParam]
  have hresult : (e.method.result.map g.stagedType).map (.rename f) =
      (e.rename f).method.result.map (g.rename f).stagedType := by
    simp [rename, MethodDef.renameAll_eq, Function.comp_def]
  have hbody : (Tree.block [g.takeSelfTree ns.selfTree, g.bindSelf ns.selfTree target]
      (e.generatedBody v) e.span).rename f =
        Tree.block [(g.rename f).takeSelfTree (f ns.selfTree),
          (g.rename f).bindSelf (f ns.selfTree) (target.rename f)]
          ((e.rename f).generatedBody (v.rename f)) e.span := by
    simp [rename_generatedBody v hf]
  have hevidence := rename_evidenceGroups (f := f) g (splitTypeParams e.method.tparams target).2
    ns.evidence
  rw [generator, generator, e.splitTypeParams_method hf, MethodDef.renameAll_eq]
  simp only [List.map_append, List.map_cons, MethodDef.mk.injEq, true_and]
  refine ⟨rfl, rfl, ?_, hresult, hbody⟩
  exact congr (congrArg HAppend.hAppend (congrArg (List.cons _) hparams)) hevidence

include hf in
/-- The method of the wrapper that calls the generator. -/
theorem renameAll_forwarder (group : Name) :
    (e.forwarder target group).renameAll f =
      (e.rename f).forwarder (target.rename f) (f group) := by
  rw [forwarder, forwarder, e.splitTypeParams_method hf, MethodDef.renameAll_eq, Tree.rename_select,
    Tree.rename_ident]
  simp only [rename, MethodDef.renameAll_eq]
  rfl

include hf in
/-- **The code of a staged extension** under other names. -/
theorem rename_stagedTrees (ns : StagedNames) :
    (e.stagedTrees v target ns).map (.rename f) =
      (e.rename f).stagedTrees (v.rename f) (target.rename f) (ns.rename f) := by
  have hobject : (Tree.objectDef { mods := {}, name := ns.group
                                   body := [.methodDef (e.generator v target ns) e.span] }
        e.span).rename f =
      Tree.objectDef { mods := {}, name := f ns.group
                       body := [(Tree.methodDef (e.generator v target ns) e.span).rename f] }
        e.span :=
    Tree.rename_ofShape f _ _
  rw [stagedTrees, stagedTrees, List.map_cons, List.map_cons, List.map_nil, rename_wrapperClass,
    hobject, Tree.rename_methodDef, e.renameAll_forwarder hf target, renameAll_generator v hf,
    e.splitTypeParams_method hf]
  rfl

include hf in
/-- **The code of a runtime extension** under other names. -/
theorem rename_runtimeTree (group : Name) :
    (e.runtimeTree v target group).rename f =
      (e.rename f).runtimeTree (v.rename f) (target.rename f) (f group) := by
  rw [runtimeTree, runtimeTree, e.splitTypeParams_method hf, rename_wrapperClass,
    MethodDef.renameAll_eq]
  simp only [rename, MethodDef.renameAll_eq]

end Extension

end

/-! ## 7. Renamings with given values -/

/-- **Names can be renamed as one likes on a list**, so long as no two of them are given one name;
and then every other name can be made to change. -/
theorem exists_renaming {l : List Name} {c : Name → Name}
    (hc : ∀ n ∈ l, ∀ m ∈ l, c n = c m → n = m) :
    ∃ f : Name → Name, Function.Injective f ∧ (∀ n ∈ l, f n = c n) ∧ ∀ n ∉ l, f n ≠ n := by
  -- all other names go above all those that are given
  obtain ⟨bound, hbound⟩ : ∃ bound, ∀ n ∈ l, (c n).index < bound :=
    ⟨(l.map fun n => (c n).index).sum + 1, fun n hn =>
      Nat.lt_succ_of_le (List.le_sum_of_mem (List.mem_map_of_mem hn))⟩
  let f : Name → Name := fun n => if n ∈ l then c n else ⟨bound + 1 + n.index⟩
  have hin : ∀ n ∈ l, f n = c n := fun n hn => if_pos hn
  have hout : ∀ n ∉ l, f n = ⟨bound + 1 + n.index⟩ := fun n hn => if_neg hn
  have habove : ∀ n ∈ l, ∀ m ∉ l, f n ≠ f m := fun n hn m hm h => by
    have hlt := hbound n hn
    rw [← hin n hn, h, hout m hm] at hlt
    dsimp only at hlt
    omega
  refine ⟨f, fun n m h => ?_, hin, fun n hn h => ?_⟩
  · by_cases hn : n ∈ l <;> by_cases hm : m ∈ l
    · rw [hin n hn, hin m hm] at h
      exact hc n hn m hm h
    · exact absurd h (habove n hn m hm)
    · exact absurd h.symm (habove m hm n hn)
    · rw [hout n hn, hout m hm, Name.mk.injEq] at h
      exact congrArg Name.mk (Nat.add_left_cancel h)
  · have hindex := congrArg Name.index ((hout n hn).symm.trans h)
    dsimp only at hindex
    omega

/-- **Names can be left as they are on a list**, and on no other name.  What is the same under such
a renaming, whatever the list, has no names that are not listed. -/
theorem exists_renaming_fixing (l : List Name) :
    ∃ f : Name → Name, Function.Injective f ∧ ∀ n, f n = n ↔ n ∈ l := by
  obtain ⟨f, hf, hin, hout⟩ := exists_renaming (l := l) (c := id) fun _ _ _ _ h => h
  refine ⟨f, hf, fun n => ⟨fun hfixed => ?_, hin n⟩⟩
  by_contra hn
  exact hout n hn hfixed

end Enrich
