import Enrich.Proofs.Clashes
import Enrich.Proofs.Conversion
/-!
# Wrapper class and companion agree

A staged extension is replaced by two declarations that are written apart from one another: a
wrapper class with the forwarder, and a companion object with the generator.  The host pairs the two
by name and hands the arguments of a call on by position, so they have to agree in all of that.

The type parameters are shared out between the class and the forwarder.  Those that the target
mentions have to be in scope where the receiver is declared, which is in the constructor of the
class.  The generator has no class around it and declares all of them.

* `Wraps`, `Generates`: how the class comes from the method, and the generator from the forwarder.
* `TakesReceiver`, `BindsReceiver`: how the generator comes by the receiver.
* `wraps_wrapperClass`, `generates_generator`: what is synthesised agrees in this way.
* `synthesize_pairs`: the main statement.
-/

namespace Enrich

/-! ## 1. Agreement -/

/-- A wrapper class and the forwarder in it, for a method whose annotation `f` asks for a staged
extension of `target`. -/
structure Wraps (v : Vocabulary) (d : MethodDef Tree Tree) (f : Found) (span : Span)
    (target : Target) (wrapper : ClassDef Tree Tree) (forwarder : MethodDef Tree Tree) : Prop where
  body : wrapper.body = [.methodDef forwarder span]
  /-- A call of the forwarder is written like a call of the method. -/
  signature : forwarder.name = d.name ∧ forwarder.groups = d.groups ∧ forwarder.result = d.result
  flags : forwarder.mods.flags = { d.mods.flags with isDeferred := true }
  /-- One annotation is gone.  It is what was found, and no other one asks for an extension. -/
  annotations : ∃ before a after,
    d.mods.annotations = before ++ a :: after ∧ before.length = f.index ∧
    forwarder.mods.annotations = before ++ after ∧
    (Search.of v.annotations d.mods.annotations = .found f →
      AnnotationMatch.of v.annotations a = .extension f.kind f.isOld f.payload ∧
      ∀ b ∈ before ++ after, AnnotationMatch.of v.annotations b = .unrelated)
  /-- The forwarder names the generator, in the companion that is called like the class. -/
  call : forwarder.body = .select (.ident wrapper.name span) d.name span
  /-- The class has the type parameters that the target mentions. -/
  outer : wrapper.tparams = d.tparams.filter fun tp => target.names.contains tp.name
  inner : forwarder.tparams = d.tparams.filter fun tp => !target.names.contains tp.name
  /-- Each type parameter is bound once. -/
  once : (wrapper.tparams ++ forwarder.tparams).Perm d.tparams
  /-- The constructor takes the receiver, and what its type mentions is in scope there. -/
  receiver : wrapper.params =
    [{ mods := { flags := { isParam := true } }
       name := v.selfName
       tpe := some target.tpe
       init := none
       span }]
  inScope : ∀ tp, tp ∈ wrapper.tparams ↔
    tp ∈ d.tparams ∧ ∃ u ∈ target.tpe.nodes .code, u.shape = .typeIdent tp.name

/-- The parameter `q` of a generator stands for the parameter `p` of the method: only its type is
another, if it has one. -/
structure Stages (g : Generator) (p q : ValueDef Tree Tree) : Prop where
  mods : q.mods = p.mods
  name : q.name = p.name
  tpe : q.tpe = p.tpe.map fun X =>
    .appliedType (.select (.ident g.context g.span) g.words.expr g.span) [X] g.span
  init : q.init = p.init
  span : q.span = p.span

/-- The parameter `q` of a generator is the evidence for the type parameter `tp`. -/
structure IsEvidence (g : Generator) (tp : TypeParam) (q : ValueDef Tree Tree) : Prop where
  mods : q.mods = { flags := { isParam := true, isImplicit := true } }
  tpe : q.tpe = some
    (.appliedType (.select (.ident g.context g.span) g.words.weakTypeTag g.span)
      [.typeIdent tp.name tp.span] g.span)
  init : q.init = none
  span : q.span = g.span

/-- The value `q` of a generator is the tree of the receiver.  The call is made on an application of
the wrapper class, and the receiver is the only argument of it: what `n` stands for when
`c.prefix.tree` is matched with `Apply(_, List(n))`. -/
structure TakesReceiver (g : Generator) (n : Name) (q : ValueDef Tree Tree) : Prop where
  mods : q.mods = {}
  name : q.name = n
  tpe : q.tpe = none
  init : q.init = some
    (.matchOn
      (.select (.select (.ident g.context g.span) g.words.callPrefix g.span) g.words.tree g.span)
      [{ pat := .apply (.ident g.words.apply g.span)
          [.wildcard g.span,
            .apply (.ident g.words.list g.span) [.bind n (.wildcard g.span) g.span] g.span] g.span
         guard := none
         body := .ident n g.span }]
      g.span)
  span : q.span = g.span

/-- The value `q` of a generator is the receiver under its own name, `c.Expr[T](n)`: the tree that
`n` stands for, as a staged value of the target. -/
structure BindsReceiver (g : Generator) (n : Name) (target : Target) (q : ValueDef Tree Tree) :
    Prop where
  mods : q.mods = {}
  name : q.name = g.words.selfName
  tpe : q.tpe = none
  init : q.init = some
    (.apply (.typeApply (.select (.ident g.context g.span) g.words.expr g.span) [target.tpe] g.span)
      [.ident n g.span] g.span)
  span : q.span = g.span

/-- The generator in the companion, for a class and the forwarder in it. -/
structure Generates (g : Generator) (target : Target) (wrapper : ClassDef Tree Tree)
    (forwarder generator : MethodDef Tree Tree) : Prop where
  name : generator.name = forwarder.name
  /-- The type parameters of the class come first. -/
  tparams : generator.tparams = wrapper.tparams ++ forwarder.tparams
  /-- The context comes first.  Then there are the parameters of the forwarder, each in its place,
  and one evidence for each of its type parameters. -/
  groups : ∃ staged evidence,
    generator.groups =
      [{ mods := { flags := { isParam := true, isImplicit := true } }
         name := g.context
         tpe := some (.typeIdent g.words.context g.span)
         init := none
         span := g.span }] :: staged ++ evidence ∧
    List.Forall₂ (List.Forall₂ (Stages g)) forwarder.groups staged ∧
    (forwarder.tparams = [] → evidence = []) ∧
    (forwarder.tparams ≠ [] → ∃ group, evidence = [group] ∧
      List.Forall₂ (IsEvidence g) forwarder.tparams group)
  /-- What the forwarder returns is staged. -/
  result : ∃ R, forwarder.result = some R ∧ generator.result = some
    (.appliedType (.select (.ident g.context g.span) g.words.expr g.span) [R] g.span)
  /-- The receiver is taken out of the call, and has the target as its type. -/
  body : ∃ n taken bound inside, generator.body =
      .block [.valueDef taken, .valueDef bound] inside g.span ∧
    TakesReceiver g n taken ∧ BindsReceiver g n target bound

/-! ## 2. The class -/

/-- A target mentions the names of the references in its type. -/
theorem Tree.mem_names_of_asTarget? {t : Tree} {target : Target} (h : t.asTarget? = .ok target)
    (n : Name) : n ∈ target.names ↔ ∃ u ∈ target.tpe.nodes .code, u.shape = .typeIdent n := by
  have htype := (converts_of_asTarget? h).isType
  have hnames : target.names = target.tpe.identifiers := by
    rw [asTarget?_eq] at h
    cases hu : t.asType? with
    | error bad => simp [hu, Functor.map, Except.map] at h
    | ok u =>
      rw [hu] at h
      cases h
      rfl
  rw [hnames, identifiers_eq_filterMap, List.mem_filterMap]
  refine exists_congr fun u => and_congr_right fun hu => ?_
  rw [identifier?_eq_some_iff, or_iff_right]
  intro hvalue
  rcases (htype u hu).1 with hkind | hkind <;> simp [kind, hvalue, Shape.kind] at hkind

/-- The annotation that was found asks for what was found, and no other one asks for anything. -/
theorem Search.eq_of_found {names : AnnotationNames} {before after : List Tree} {a : Tree}
    {f : Found} (h : Search.of names (before ++ a :: after) = .found f)
    (hindex : before.length = f.index) :
    AnnotationMatch.of names a = .extension f.kind f.isOld f.payload ∧
      ∀ b ∈ before ++ after, AnnotationMatch.of names b = .unrelated := by
  have hothers := of_eraseIdx_of_found h
  rw [← hindex, List.eraseIdx_append_of_length_le (Nat.le_refl _), Nat.sub_self,
    List.eraseIdx_cons_zero, of_eq_nothing_iff] at hothers
  refine ⟨?_, hothers⟩
  obtain ⟨ann, hc⟩ := candidates_of_found h
  have hmem : (ann, f.index) ∈ candidates names (before ++ a :: after) := by
    rw [hc]
    exact List.mem_singleton_self _
  have hann := List.mem_zipIdx_iff_getElem?.mp (List.mem_filter.mp hmem).1
  rw [← hindex, List.getElem?_append_right (Nat.le_refl _), Nat.sub_self] at hann
  obtain rfl : a = ann := Option.some.inj hann
  simp only [Search.of, hc] at h
  split at h
  · rw [← Search.found.inj h]
    assumption
  · contradiction
  · contradiction

section

variable {v : Vocabulary} {d : MethodDef Tree Tree} {f : Found} {span : Span} {target : Target}

theorem wraps_wrapperClass (hindex : f.index < d.mods.annotations.length)
    (htarget : f.payload.asTarget? = .ok target) (group : Name) :
    let e := Extension.ofFound f d span
    ∃ wrapper, wrapperClass v group (splitTypeParams e.method.tparams target).1 target
        (e.forwarder target group) span = .classDef wrapper span ∧
      wrapper.name = group ∧ Wraps v d f span target wrapper (e.forwarder target group) := by
  intro e
  have houter : (splitTypeParams d.tparams target).1 =
      d.tparams.filter fun tp => target.names.contains tp.name := splitTypeParams_fst _ _
  have hinner : (splitTypeParams d.tparams target).2 =
      d.tparams.filter fun tp => !target.names.contains tp.name := splitTypeParams_snd _ _
  refine ⟨_, rfl, rfl, {
    body := rfl
    signature := ⟨rfl, rfl, rfl⟩
    flags := rfl
    annotations := ?_
    call := rfl
    outer := houter
    inner := hinner
    once := ?_
    receiver := rfl
    inScope := fun tp => ?_ }⟩
  · have hsplit := List.take_append_drop f.index d.mods.annotations
    rw [List.drop_eq_getElem_cons hindex] at hsplit
    have hlength : (d.mods.annotations.take f.index).length = f.index :=
      List.length_take_of_le (Nat.le_of_lt hindex)
    refine ⟨_, _, _, hsplit.symm, hlength, List.eraseIdx_eq_take_drop_succ _ _, fun hfound => ?_⟩
    rw [← hsplit] at hfound
    exact Search.eq_of_found hfound hlength
  · change ((splitTypeParams d.tparams target).1 ++ (splitTypeParams d.tparams target).2).Perm _
    rw [houter, hinner]
    exact List.filter_append_perm _ _
  · change tp ∈ (splitTypeParams d.tparams target).1 ↔ _
    rw [houter, List.mem_filter, List.contains_iff_mem, Tree.mem_names_of_asTarget? htarget]

end

/-! ## 3. The companion -/

section

variable (g : Generator)

theorem stages_stagedParam (p : ValueDef Tree Tree) : Stages g p (g.stagedParam p) :=
  ⟨rfl, rfl, rfl, rfl, rfl⟩

theorem forall₂_stages (groups : List (List (ValueDef Tree Tree))) :
    List.Forall₂ (List.Forall₂ (Stages g)) groups (groups.map (·.map g.stagedParam)) := by
  rw [List.forall₂_map_right_iff]
  refine List.forall₂_same.mpr fun group _ => ?_
  rw [List.forall₂_map_right_iff]
  exact List.forall₂_same.mpr fun p _ => stages_stagedParam g p

theorem forall₂_isEvidence : ∀ {inner : List TypeParam} {names : List Name},
    names.length = inner.length → List.Forall₂ (IsEvidence g) inner
      (List.zipWith (fun tp n => implicitParam n (g.evidenceType tp) g.span) inner names)
  | [], _, _ => .nil
  | _ :: _, [], h => by contradiction
  | _ :: _, _ :: _, h => .cons ⟨rfl, rfl, rfl, rfl⟩ (forall₂_isEvidence (Nat.succ.inj h))

/-- There is one evidence for each type parameter, and no group for it without any. -/
theorem evidenceGroups_cases {inner : List TypeParam} {names : List Name}
    (hlength : names.length = inner.length) :
    (inner = [] → Extension.evidenceGroups g inner names = []) ∧
      (inner ≠ [] → ∃ group, Extension.evidenceGroups g inner names = [group] ∧
        List.Forall₂ (IsEvidence g) inner group) := by
  constructor
  · rintro rfl
    rfl
  · intro hinner
    refine ⟨_, ?_, forall₂_isEvidence g hlength⟩
    rw [Extension.evidenceGroups, if_neg (by simpa using hinner)]

end

/-- The generator goes with the forwarder, whatever the names in it. -/
theorem generates_generator {v : Vocabulary} {e : Extension} {target : Target}
    {names : StagedNames} {R : Tree} {wrapper : ClassDef Tree Tree}
    (htparams : wrapper.tparams = (splitTypeParams e.method.tparams target).1)
    (hlength : names.evidence.length = (splitTypeParams e.method.tparams target).2.length)
    (hresult : e.method.result = some R) :
    Generates { words := v, context := names.context, span := e.span } target wrapper
      (e.forwarder target names.group) (e.generator v target names) where
  name := rfl
  tparams := by
    rw [htparams]
    rfl
  groups := ⟨_, _, rfl, forall₂_stages _ _, evidenceGroups_cases _ hlength⟩
  result := ⟨R, hresult, congrArg (Option.map _) hresult⟩
  body := ⟨names.selfTree, _, _, _, rfl, ⟨rfl, rfl, rfl, rfl, rfl⟩,
    ⟨rfl, rfl, rfl, rfl, rfl⟩⟩

/-! ## 4. The main statement -/

/-- A staged extension that nothing speaks against declares its result. -/
theorem Extension.exists_result_of_sound {v : Vocabulary} {e : Extension} (hk : e.kind = .staged)
    (h : e.faults v = []) : ∃ R, e.method.result = some R := by
  cases hresult : e.method.result with
  | some R => exact ⟨R, rfl⟩
  | none => simp [faults, hk, methodFaults, hresult] at h

/-- **Wrapper class and companion agree**, whenever a staged extension is replaced. -/
theorem synthesize_pairs {v : Vocabulary} {d : MethodDef Tree Tree} {f : Found} {span : Span}
    {s : ExpandState} {trees : List Tree} (hkind : f.kind = .staged)
    (hindex : f.index < d.mods.annotations.length)
    (hok : (((Extension.ofFound f d span).synthesize v).run s).1 = some trees) :
    ∃ target wrapper forwarder companion generator context,
      f.payload.asTarget? = .ok target ∧
      trees = [.classDef wrapper span, .objectDef companion span] ∧
      companion.name = wrapper.name ∧ companion.body = [.methodDef generator span] ∧
      Wraps v d f span target wrapper forwarder ∧
      Generates { words := v, context, span } target wrapper forwarder generator := by
  obtain ⟨target, htarget, hcode⟩ := Extension.exists_generate_of_synthesize hok
  obtain ⟨-, -, hlength⟩ := (Extension.ofFound f d span).gains_stagedNames target s
  generalize hnames : ((Extension.ofFound f d span).stagedNames target).run s = named at hlength
  have hsound : (Extension.ofFound f d span).faults v = [] := by
    refine Decidable.byContradiction fun hfaults => ?_
    rw [(Extension.run_synthesize_eq_none_iff s).mpr hfaults] at hok
    contradiction
  obtain ⟨R, hresult⟩ := Extension.exists_result_of_sound hkind hsound
  have htrees : trees = (Extension.ofFound f d span).stagedTrees v target named.1 := by
    rw [← hcode, ← hnames, Extension.generate,
      show (Extension.ofFound f d span).kind = .staged from hkind]
    rfl
  obtain ⟨wrapper, hwrapper, hgroup, hwraps⟩ := wraps_wrapperClass hindex htarget named.1.group
  let companion : ObjectDef Tree Tree :=
    { mods := {}, name := named.1.group
      body := [.methodDef ((Extension.ofFound f d span).generator v target named.1) span] }
  refine ⟨target, wrapper, _, companion, _, _, htarget, ?_, hgroup.symm, rfl, hwraps,
    generates_generator ?_ hlength hresult⟩
  · rw [htrees, ← hwrapper]
    rfl
  · rw [hwraps.outer, splitTypeParams_fst]
    rfl

/-- The method `@other @extend(Expr[A]) def List[A, B](prefix: B): B = self`: its class has `A`, and
its forwarder has `B` and the other annotation. -/
theorem synthesize_pairs_two :
    let v := Vocabulary.usual
    let i := ((Vocabulary.intern {}).run .new).2
    let A : TypeParam := { name := v.tree, span := .nowhere }
    let B : TypeParam := { name := v.apply, span := .nowhere }
    let payload := Tree.typeApply (.ident v.expr .nowhere) [.ident A.name .nowhere] .nowhere
    let annotation (name : Name) (args : List Tree) :=
      Tree.apply (.ofShape (.new (.typeIdent name .nowhere)) .nowhere) args .nowhere
    let other := annotation v.weakTypeTag []
    let d : MethodDef Tree Tree :=
      { mods := { annotations := [other, annotation v.annotations.staged [payload]] }
        name := v.list
        tparams := [A, B]
        groups := [[.param v.callPrefix (.typeIdent B.name .nowhere) .nowhere]]
        result := some (.typeIdent B.name .nowhere)
        body := .ident v.selfName .nowhere }
    let f : Found := { kind := .staged, isOld := false, payload, index := 1, span := .nowhere }
    Search.of v.annotations d.mods.annotations = .found f ∧
    f.kind = .staged ∧ f.index < d.mods.annotations.length ∧
    ∃ (wrapper : ClassDef Tree Tree) (forwarder generator : MethodDef Tree Tree)
        (companion : ObjectDef Tree Tree),
      (((Extension.ofFound f d .nowhere).synthesize v).run { supply := { interner := i } }).1 =
        some [.classDef wrapper .nowhere, .objectDef companion .nowhere] ∧
      companion.name = wrapper.name ∧ companion.body = [.methodDef generator .nowhere] ∧
      wrapper.tparams = [A] ∧ forwarder.tparams = [B] ∧ generator.tparams = [A, B] ∧
      forwarder.mods.annotations = [other] := by
  intro v i A B payload annotation other d f
  have hsearch : Search.of v.annotations d.mods.annotations = .found f := by decide +kernel
  obtain ⟨trees, hok⟩ : ∃ trees, (((Extension.ofFound f d .nowhere).synthesize v).run
      { supply := { interner := i } }).1 = some trees := ⟨_, rfl⟩
  obtain ⟨target, wrapper, forwarder, companion, generator, context, htarget, rfl, hname, hbody,
    hwraps, hgenerates⟩ := synthesize_pairs rfl (by decide) hok
  cases htarget
  have houter : wrapper.tparams = [A] := hwraps.outer
  have hinner : forwarder.tparams = [B] := hwraps.inner
  obtain ⟨before, a, after, hsplit, hlength, hrest, -⟩ := hwraps.annotations
  refine ⟨hsearch, rfl, by decide, wrapper, forwarder, generator, companion, hok, hname, hbody,
    houter, hinner, ?_, ?_⟩
  · rw [hgenerates.tparams, houter, hinner]
    rfl
  · obtain ⟨b, rfl⟩ := List.length_eq_one_iff.mp hlength
    cases hsplit
    exact hrest

end Enrich
