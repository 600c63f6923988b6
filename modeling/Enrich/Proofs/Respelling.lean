import Enrich.Proofs.Interning
import Enrich.Proofs.Lockstep
import Enrich.Session.Basic
import Mathlib.Data.List.Nodup
/-!
# The old spelling changes only the report

A method in an object or a package asks for an extension in the old spelling, and nothing else asks
for anything there.  If its annotation is in the present spelling instead, the run goes the same,
down to the names that are generated, but for one report each time the method is looked at.

The method may be looked at several times.  It goes on in the code that is generated for a method
around it, where it is copied, and spliced if it stands in a body that is quoted.  So the two runs
are kept side by side on trees that are the same but for copies of the method (`Lockstep`).

* `judge_respelled`: the verdicts on the method in the two spellings.
* `expandReports_respelled`: the main statement.
* `expandReports_not_respelled_value`: only methods are looked at.
-/

namespace Enrich

/-! ## 1. The two spellings -/

namespace Tree

/-- A reference to a class, under another name. -/
def renamedTo (n : Name) (t : Tree) : Tree :=
  match t.shape with
  | .typeIdent _ => ⟨.typeIdent n, t.span, t.ty⟩
  | .ident _ => ⟨.ident n, t.span, t.ty⟩
  | _ => t

/-- A constructor call, of the class of another name. -/
def withClassName (n : Name) (t : Tree) : Tree :=
  match t.shape with
  | .apply ⟨.new tpe, span, ty⟩ args =>
    ⟨.apply ⟨.new (tpe.renamedTo n), span, ty⟩ args, t.span, t.ty⟩
  | .new tpe => ⟨.new (tpe.renamedTo n), t.span, t.ty⟩
  | _ => t

theorem className?_renamedTo {t : Tree} {n n' : Name} (h : t.className? = some n) :
    (t.renamedTo n').className? = some n' := by
  unfold className? at h
  split at h <;> simp_all [renamedTo, className?]

theorem constructorCall?_withClassName {t : Tree} {n : Name} {args : List Tree} (n' : Name)
    (h : t.constructorCall? = some (n, args)) :
    (t.withClassName n').constructorCall? = some (n', args) := by
  have hrenamed : ∀ {tpe : Tree} {args' : List Tree},
      tpe.className?.map (·, args') = some (n, args) →
        (tpe.renamedTo n').className?.map (·, args') = some (n', args) := by
    intro tpe args' hcall
    obtain ⟨m, hm, heq⟩ := Option.map_eq_some_iff.mp hcall
    rw [className?_renamedTo hm, (Prod.mk.inj heq).2]
    rfl
  obtain ⟨shape, span, ty⟩ := t
  cases shape with
  | new tpe => exact hrenamed h
  | apply fn args' =>
    obtain ⟨fnShape, fnSpan, fnTy⟩ := fn
    cases fnShape with
    | new tpe => exact hrenamed h
    | _ => simp [constructorCall?] at h
  | _ => simp [constructorCall?] at h

end Tree

/-- The method `m` asks for one extension, by the annotation `a` in the old spelling and with one
argument; `m'` is `m` with that annotation in the present spelling. -/
inductive Respells (names : AnnotationNames) (a : Tree) : Tree → Tree → Prop
  | intro (d : MethodDef Tree Tree) (before after : List Tree) (payload : Tree) (span : Span)
      (ty : Option Name) (hcall : a.constructorCall? = some (names.deprecated, [payload]))
      (hothers : ∀ b ∈ before ++ after, AnnotationMatch.of names b = .unrelated) :
      Respells names a
        ⟨.methodDef { d with mods.annotations := before ++ a :: after }, span, ty⟩
        ⟨.methodDef
          { d with mods.annotations := before ++ a.withClassName names.staged :: after }, span, ty⟩

/-- `x` and `y` are the same copy of `m` and of `m'`, with the same references spliced. -/
inductive Copies (m m' : Tree) : Tree → Tree → Prop
  | refl : Copies m m' m m'
  | spliced {x y : Tree} (r : ReservedNames) (h : Copies m m' x y) :
      Copies m m' (x.spliceReserved r) (y.spliceReserved r)

namespace Respells

variable {names : AnnotationNames} {a x y : Tree}

theorem spliceReserved (r : ReservedNames) (h : Respells names a x y) :
    Respells names a (x.spliceReserved r) (y.spliceReserved r) := by
  obtain ⟨d, before, after, payload, span, ty, hcall, hothers⟩ := h
  rw [Tree.spliceReserved_of_not_ident (fun _ hn => by cases hn),
    Tree.spliceReserved_of_not_ident (fun _ hn => by cases hn)]
  have hintro := Respells.intro (d.bimap id (Tree.spliceReserved r)) before after payload span ty
    hcall hothers
  simpa [Shape.map, Shape.bimap, MethodDef.bimap, Modifiers.map] using hintro

theorem of_copies {m m' : Tree} (h : Respells names a m m') (hc : Copies m m' x y) :
    Respells names a x y := by
  induction hc with
  | refl => exact h
  | spliced r _ ih => exact ih.spliceReserved r

theorem bindings_eq (h : Respells names a x y) : x.bindings = y.bindings := by
  obtain ⟨d, before, after, payload, span, ty, -, -⟩ := h
  rw [Tree.bindings_eq, Tree.bindings_eq]
  rfl

theorem kind_eq (h : Respells names a x y) : x.kind = y.kind := by
  obtain ⟨d, before, after, payload, span, ty, -, -⟩ := h
  rfl

theorem expansionDepth_eq (h : Respells names a x y) : x.expansionDepth = y.expansionDepth := by
  obtain ⟨d, before, after, payload, span, ty, -, -⟩ := h
  rw [Tree.expansionDepth_eq, Tree.expansionDepth_eq]
  simp [Tree.methodAnnotations, Shape.children, MethodDef.children, MethodDef.params]

theorem corresponds {m m' : Tree} (h : Respells names a m m') : Corresponds (Copies m m') where
  spliced r _ _ hc := hc.spliced r
  bindings _ _ hc := (h.of_copies hc).bindings_eq
  kind _ _ hc := (h.of_copies hc).kind_eq
  depth _ _ hc := (h.of_copies hc).expansionDepth_eq

end Respells

/-! ## 2. The verdicts -/

section

variable {v : Vocabulary} {a : Tree} {x y : Tree}

/-- The verdict on a method with one request, for a staged extension. -/
theorem judge_of_request {d : MethodDef Tree Tree} {before after : List Tree} {b payload : Tree}
    {isOld : Bool} {span : Span} {ty : Option Name}
    (hb : AnnotationMatch.of v.annotations b = .extension .staged isOld payload)
    (hothers : ∀ c ∈ before ++ after, AnnotationMatch.of v.annotations c = .unrelated) :
    let spelling : List Fault := if isOld then [.oldSpelling b.span none] else []
    let e : Extension :=
      { kind := .staged, payload, method := { d with mods.annotations := before ++ after }, span }
    judge v .container ⟨.methodDef { d with mods.annotations := before ++ b :: after }, span, ty⟩ =
      match e.payload.asTarget?, e.faults v with
      | .ok target, [] => .extend spelling e target
      | _, faults => .drop (spelling ++ faults) := by
  intro spelling e
  have hno : ∀ c ∈ before ++ after, c.isRequest v.annotations = false := fun c hc => by
    rw [Tree.isRequest, hothers c hc]
    rfl
  have hyes : b.isRequest v.annotations = true := by
    rw [Tree.isRequest, hb]
    rfl
  have hsingle : (before ++ b :: after).filter (Tree.isRequest v.annotations) = [b] := by
    refine List.filter_eq_cons_iff.mpr ⟨before, after, rfl, fun c hc => ?_, hyes, ?_⟩
    · simp [hno c (List.mem_append_left _ hc)]
    · exact List.filter_eq_nil_iff.mpr fun c hc => by simp [hno c (List.mem_append_right _ hc)]
  obtain ⟨index, hsearch, hrest⟩ := Search.of_of_extension hsingle hb
  have hothersOnly : (before ++ b :: after).eraseIdx index = before ++ after := by
    have hkeep : (before ++ after).filter (fun c => !c.isRequest v.annotations) = before ++ after :=
      List.filter_eq_self.mpr fun c hc => by rw [hno c hc]; rfl
    rw [hrest, List.filter_append, List.filter_cons_of_neg (by simp [hyes]), ← List.filter_append,
      hkeep]
  simp only [judge, hsearch, judgeFound, Extension.ofFound, hothersOnly, reduceCtorEq, false_and,
    if_false]
  rfl

/-- **The verdicts on the method in the two spellings**: the old one is a fault more, and that
fault comes first. -/
theorem judge_respelled
    (hnames : [v.annotations.staged, v.annotations.runtime, v.annotations.deprecated].Nodup)
    (h : Respells v.annotations a x y) :
    (∃ faults, judge v .container x = .drop (.oldSpelling a.span none :: faults) ∧
      judge v .container y = .drop faults) ∨
    ∃ e target, judge v .container x = .extend [.oldSpelling a.span none] e target ∧
      judge v .container y = .extend [] e target := by
  obtain ⟨d, before, after, payload, span, ty, hcall, hothers⟩ := h
  obtain ⟨hstaged, hruntime⟩ : v.annotations.deprecated ≠ v.annotations.staged ∧
      v.annotations.deprecated ≠ v.annotations.runtime := by
    simp only [List.nodup_cons, List.mem_cons, List.not_mem_nil, or_false, not_or] at hnames
    exact ⟨fun h => hnames.1.2 h.symm, fun h => hnames.2.1 h.symm⟩
  have hcall' := Tree.constructorCall?_withClassName v.annotations.staged hcall
  have hold : AnnotationMatch.of v.annotations a = .extension .staged true payload := by
    simp only [AnnotationMatch.of, hcall, AnnotationNames.request?, if_neg hstaged, if_neg hruntime,
      if_true]
  have hnew : AnnotationMatch.of v.annotations (a.withClassName v.annotations.staged) =
      .extension .staged false payload := by
    simp only [AnnotationMatch.of, hcall', AnnotationNames.request?, if_true]
  rw [judge_of_request hold hothers, judge_of_request hnew hothers]
  dsimp only
  split
  · exact .inr ⟨_, _, rfl, rfl⟩
  · exact .inl ⟨_, rfl, rfl⟩

/-- The method is expanded in the same way in both spellings. -/
theorem Respells.expandAlike
    (hnames : [v.annotations.staged, v.annotations.runtime, v.annotations.deprecated].Nodup)
    (h : Respells v.annotations a x y) : ExpandAlike (Copies x y) v where
  parallel x' y' hc := by
    rcases judge_respelled hnames (h.of_copies hc) with ⟨faults, hx, hy⟩ | ⟨e, target, hx, hy⟩
    · rw [hx, hy]
      exact .drop _ _
    · rw [hx, hy]
      exact .extend _ _ target (.refl e)
  ne_keep x' y' hc remarks hkeep := by
    rcases judge_respelled hnames (h.of_copies hc) with ⟨faults, hx, -⟩ | ⟨e, target, hx, -⟩ <;>
      simp [hx] at hkeep

/-! ## 3. The runs -/

/-- Two looks go together.  They are at members that are the same but for copies of the method, and
the same is found; or they are at a copy of the method, and in the old spelling a fault is found
before all that is found in the present one. -/
inductive Look.Respelled (v : Vocabulary) (a m m' : Tree) : Look → Look → Prop
  | same {l l' : Look} (scope : l.scope = l'.scope)
      (member : Tree.SameBut (Copies m m') none l.member l'.member)
      (findings : l.findings v = l'.findings v) : Respelled v a m m' l l'
  | respelled {l l' : Look} (scope : l.scope = .container) (scope' : l'.scope = .container)
      (member : Copies m m' l.member l'.member)
      (findings : l.findings v = .fault (.oldSpelling a.span none) :: l'.findings v) :
      Respelled v a m m' l l'

theorem Look.SameBut.respelled {m m' : Tree} {l l' : Look}
    (hnames : [v.annotations.staged, v.annotations.runtime, v.annotations.deprecated].Nodup)
    (hm : Respells v.annotations a m m') (h : Look.SameBut (Copies m m') v l l') :
    Look.Respelled v a m m' l l' := by
  cases h with
  | same scope member findings => exact .same scope member findings
  | pair scope scope' hc =>
    refine .respelled scope scope' hc ?_
    rw [Look.findings, Look.findings, scope, scope']
    rcases judge_respelled hnames (hm.of_copies hc) with ⟨faults, hx, hy⟩ | ⟨e, target, hx, hy⟩ <;>
    · rw [hx, hy]
      rfl

end

/-- Different spellings have different names. -/
theorem Vocabulary.nodup_of_spellings {o : Options} {i j : Interner} {v : Vocabulary}
    (hv : (Vocabulary.intern o).run i = (v, j))
    (h : [o.spellings.staged, o.spellings.runtime, o.spellings.deprecated].Nodup) :
    [v.annotations.staged, v.annotations.runtime, v.annotations.deprecated].Nodup := by
  have hlookup : [v.annotations.staged, v.annotations.runtime, v.annotations.deprecated].map
      j.lookup? = [o.spellings.staged, o.spellings.runtime, o.spellings.deprecated].map some :=
    congrArg (List.take 3) (Vocabulary.lookup?_names hv)
  refine List.Nodup.of_map j.lookup? ?_
  rw [hlookup]
  exact h.map fun _ _ => Option.some.inj

/-- What is found in a look, in words. -/
def Look.reports (v : Vocabulary) (i : Interner) (l : Look) : List Diagnostic :=
  (l.findings v).map (·.diagnostic v.annotations i)

/-- A session reports what is found look by look. -/
theorem expandReports_of_looks {s : Session} {v : Vocabulary} {i : Interner}
    (hv : (Vocabulary.intern s.config.toOptions).run s.interner = (v, i)) (t : Tree) :
    let start : ExpandState := { supply := { interner := i } }
    let out := (expandUnit v t).run start
    s.expandReports t =
      (out.1, (looks v t start).flatMap (Look.reports v out.2.supply.interner),
        out.2.supply.interner) := by
  intro start out
  have hfound : out.2.findings = (looks v t start).flatMap (Look.findings v) :=
    findings_eq_looks v t start
  have hrun : (expandUnit v t).run start = (out.1, out.2) := rfl
  rw [Session.expandReports_of_run hv hrun, hfound, List.map_flatMap]
  rfl

/-- **The old spelling changes only the report.**  If a method in an object or a package is in the
present spelling instead, the unit becomes the same, with the same names generated.  What is
reported is what is found look by look, and the looks go together: at the method there is one report
more in the old spelling, before those of its synthesis, and there is no other difference. -/
theorem expandReports_respelled {s : Session} {v : Vocabulary} {i : Interner} {a m m' t t' : Tree}
    (hspellings : [s.config.spellings.staged, s.config.spellings.runtime,
      s.config.spellings.deprecated].Nodup)
    (hv : (Vocabulary.intern s.config.toOptions).run s.interner = (v, i))
    (hm : Respells v.annotations a m m')
    (ht : Tree.SameBut (fun x y => x = m ∧ y = m') none t t') :
    let start : ExpandState := { supply := { interner := i } }
    let old := s.expandReports t
    let present := s.expandReports t'
    old.1 = present.1 ∧ old.2.2 = present.2.2 ∧
      old.2.1 = (looks v t start).flatMap (Look.reports v old.2.2) ∧
      present.2.1 = (looks v t' start).flatMap (Look.reports v present.2.2) ∧
      List.Forall₂ (Look.Respelled v a m m') (looks v t start) (looks v t' start) := by
  intro start old present
  have hnames := Vocabulary.nodup_of_spellings hv hspellings
  have hcopies : Tree.SameBut (Copies m m') none t t' :=
    ht.mono fun x y h => by rw [h.1, h.2]; exact .refl
  obtain ⟨htree, hsupply, hlooks⟩ :=
    expandUnit_sameBut hm.corresponds (hm.expandAlike hnames) hcopies (s := start) rfl
  have hold : old = _ := expandReports_of_looks hv t
  have hpresent : present = _ := expandReports_of_looks hv t'
  rw [hold, hpresent]
  exact ⟨htree, congrArg NameSupply.interner hsupply, rfl, rfl,
    hlooks.imp fun l l' hl => hl.respelled hnames hm⟩

/-- The method `@ext(Expr) def apply(): Tree = self`, in an object. -/
theorem expandReports_respelled_method :
    let s : Session := {}
    let v := Vocabulary.usual
    let i := ((Vocabulary.intern {}).run .new).2
    let request (name : Name) := Tree.apply (.ofShape (.new (.typeIdent name ⟨5, 8⟩)) ⟨5, 8⟩)
      [.typeIdent v.expr ⟨9, 13⟩] ⟨4, 14⟩
    let method (name : Name) := Tree.methodDef
      { mods := { annotations := [request name] }, name := v.apply, tparams := [], groups := [[]]
        result := some (.typeIdent v.tree ⟨28, 32⟩), body := .ident v.selfName ⟨35, 39⟩ } ⟨4, 39⟩
    let unit (name : Name) :=
      Tree.objectDef { mods := {}, name := v.list, body := [method name] } ⟨0, 41⟩
    let old := s.expandReports (unit v.annotations.deprecated)
    let present := s.expandReports (unit v.annotations.staged)
    let start : ExpandState := { supply := { interner := i } }
    old.1 = present.1 ∧
      List.Forall₂ (Look.Respelled v (request v.annotations.deprecated)
        (method v.annotations.deprecated) (method v.annotations.staged))
        (looks v (unit v.annotations.deprecated) start)
        (looks v (unit v.annotations.staged) start) ∧
      old.2.1.map (·.code) = [.deprecatedSpelling] ∧ present.2.1 = [] := by
  intro s v i request method unit old present start
  have hm : Respells v.annotations (request v.annotations.deprecated)
      (method v.annotations.deprecated) (method v.annotations.staged) :=
    .intro { mods := {}, name := v.apply, tparams := [], groups := [[]]
             result := some (.typeIdent v.tree ⟨28, 32⟩), body := .ident v.selfName ⟨35, 39⟩ }
      [] [] (.typeIdent v.expr ⟨9, 13⟩) ⟨4, 39⟩ none rfl (by simp)
  have ht : Tree.SameBut
      (fun x y => x = method v.annotations.deprecated ∧ y = method v.annotations.staged) none
      (unit v.annotations.deprecated) (unit v.annotations.staged) := by
    refine .node (.objectDef { mods := {}, name := v.list, body := [(_, _)] }) ⟨0, 41⟩ none
      fun l hl p hp => ?_
    rw [List.mem_singleton.mp hl] at hp ⊢
    rw [List.mem_singleton.mp hp]
    exact .member ⟨rfl, rfl⟩
  have hv : (Vocabulary.intern s.config.toOptions).run s.interner = (v, i) := Prod.ext rfl rfl
  obtain ⟨htree, -, -, -, hlooks⟩ := expandReports_respelled (s := s) (by decide) hv hm ht
  exact ⟨htree, hlooks, by decide +kernel, by decide +kernel⟩

/-- Only methods are looked at: a value with the annotation `@ext(Expr)`, in an object, keeps it as
it is spelled, and there is no report. -/
theorem expandReports_not_respelled_value :
    let s : Session := {}
    let v := Vocabulary.usual
    let request (name : Name) := Tree.apply (.ofShape (.new (.typeIdent name ⟨5, 8⟩)) ⟨5, 8⟩)
      [.typeIdent v.expr ⟨9, 13⟩] ⟨4, 14⟩
    let value (name : Name) := Tree.valueDef
      { mods := { annotations := [request name] }, name := v.apply, tpe := none
        init := some (.ident v.selfName ⟨35, 39⟩), span := ⟨4, 39⟩ }
    let unit (name : Name) :=
      Tree.objectDef { mods := {}, name := v.list, body := [value name] } ⟨0, 41⟩
    let old := s.expandReports (unit v.annotations.deprecated)
    let present := s.expandReports (unit v.annotations.staged)
    [s.config.spellings.staged, s.config.spellings.runtime, s.config.spellings.deprecated].Nodup ∧
      AnnotationMatch.of v.annotations (request v.annotations.deprecated) =
        .extension .staged true (.typeIdent v.expr ⟨9, 13⟩) ∧
      (request v.annotations.deprecated).withClassName v.annotations.staged =
        request v.annotations.staged ∧
      old.1 ≠ present.1 ∧ old.2.1 = [] ∧ present.2.1 = [] := by
  decide +kernel

end Enrich
