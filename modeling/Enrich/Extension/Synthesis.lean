import Enrich.Extension.Finding
import Enrich.NameSupply
/-!
# Synthesis: what replaces an extension

A method with an extension annotation becomes an implicit wrapper class over the target type.  A
runtime extension is moved into the class as it is.  A staged extension is split: the class gets a
forwarder, and a companion object of the same name gets a generator that builds the code of each
call.  The extension `@extend(Box[A]) def put[A, B](b: B): Box[B] = self.map(b)` is replaced by

```text
implicit class put$1[A](self: Box[A]) { macro def put[B](b: B): Box[B] = put$1.put }
object put$1 {
  def put[A, B](implicit c$2: Context)(b: c$2.Expr[B])
      (implicit evidence$4: c$2.WeakTypeTag[B]): c$2.Expr[Box[B]] = {
    val selfTree$3 = c$2.prefix.tree match { case Apply(_, List(selfTree$3)) => selfTree$3 }
    val self = c$2.Expr[Box[A]](selfTree$3)
    '{ ${ self }.map(${ b }) }
  }
}
```

What speaks against an extension is found first and without any effect (`Extension.faults`); names
are generated only for an extension nothing speaks against.

* `Extension.synthesize_of_faults`: the faults of an extension are reported, and nothing else
  happens.
-/

namespace Enrich

/-! ## 1. Preconditions -/

/-- A method that is about to be replaced. -/
structure Extension where
  kind : ExtensionKind
  payload : Tree
  /-- The method without the extension annotation. -/
  method : MethodDef Tree Tree
  span : Span

namespace Extension

/-- The extension that an annotation makes of a method. -/
def ofFound (f : Found) (d : MethodDef Tree Tree) (span : Span) : Extension where
  kind := f.kind
  payload := f.payload
  method := { d with mods.annotations := d.mods.annotations.eraseIdx f.index }
  span := span

/-- Is the body a staged value already?  Then it is used as it stands. -/
def hasStagedBody (e : Extension) : Bool :=
  e.method.mods.flags.isDeferred || e.method.body.kind = .quote

/-- The receiver and the value parameters. -/
def reserved (v : Vocabulary) (e : Extension) : ReservedNames :=
  .ofMethod v.selfName e.method

/-- What speaks against the target. -/
def targetFaults (e : Extension) : List Fault :=
  match e.payload.asTarget? with
  | .ok _ => []
  | .error bad => [.targetNotHandled e.payload bad.span]

/-- What speaks against the method of a staged extension. -/
def methodFaults (v : Vocabulary) (e : Extension) : List Fault :=
  (if e.method.result.isNone then [.missingResult e.method.name e.span] else []) ++
    if e.hasStagedBody then []
    else (e.method.body.redeclarations (e.reserved v)).map .redeclared

/-- All that speaks against an extension. -/
def faults (v : Vocabulary) (e : Extension) : List Fault :=
  e.targetFaults ++
    match e.kind with
    | .staged => e.methodFaults v
    | .runtime => []

end Extension

/-! ## 2. Generated code -/

/-- A parameter that is filled in at the call. -/
def implicitParam (name : Name) (tpe : Tree) (span : Span) : ValueDef Tree Tree :=
  let p := ValueDef.param name tpe span
  { p with mods.flags.isImplicit := true }

/-- The names and the place that the code of one generator is built with. -/
structure Generator where
  words : Vocabulary
  /-- The context parameter. -/
  context : Name
  span : Span

namespace Generator

variable (g : Generator)

/-- A member of the context. -/
def member (name : Name) : Tree := .select (.ident g.context g.span) name g.span

/-- The type of staged values of type `tpe`. -/
def stagedType (tpe : Tree) : Tree := .appliedType (g.member g.words.expr) [tpe] g.span

/-- The type of the evidence for a type parameter. -/
def evidenceType (tp : TypeParam) : Tree :=
  .appliedType (g.member g.words.weakTypeTag) [.typeIdent tp.name tp.span] g.span

/-- A parameter whose values are staged; all but its type stays as it is. -/
def stagedParam (p : ValueDef Tree Tree) : ValueDef Tree Tree :=
  { p with tpe := p.tpe.map g.stagedType }

/-- Takes the receiver's tree out of the tree of the call. -/
def takeSelfTree (selfTree : Name) : Tree :=
  let callTree := Tree.select (g.member g.words.callPrefix) g.words.tree g.span
  let arguments := Tree.apply (.ident g.words.list g.span)
    [.bind selfTree (.wildcard g.span) g.span] g.span
  let pattern := Tree.apply (.ident g.words.apply g.span) [.wildcard g.span, arguments] g.span
  let taken := Tree.matchOn callTree
    [{ pat := pattern, guard := none, body := .ident selfTree g.span }] g.span
  .valueDef (.ofInit selfTree taken g.span)

/-- Gives the receiver its name, as a staged value of the target type. -/
def bindSelf (selfTree : Name) (target : Target) : Tree :=
  let make := Tree.typeApply (g.member g.words.expr) [target.tpe] g.span
  let self := Tree.apply make [.ident selfTree g.span] g.span
  .valueDef (.ofInit g.words.selfName self g.span)

end Generator

/-- The wrapper class: one implicit conversion from the target, and the method. -/
def wrapperClass (v : Vocabulary) (group : Name) (outer : List TypeParam) (target : Target)
    (method : MethodDef Tree Tree) (span : Span) : Tree :=
  .classDef {
    mods := { flags := { isImplicit := true } }
    name := group
    tparams := outer
    params := [.param v.selfName target.tpe span]
    body := [.methodDef method span] } span

/-- The names that a staged extension needs. -/
structure StagedNames where
  /-- The wrapper class and its companion. -/
  group : Name
  /-- The context parameter. -/
  context : Name
  /-- The tree of the receiver. -/
  selfTree : Name
  /-- The evidence for the type parameters that stay with the method, in their order. -/
  evidence : List Name

namespace Extension

/-- What a generator returns: a staged body as it is, any other body quoted, with the receiver and
the parameters spliced in. -/
def generatedBody (v : Vocabulary) (e : Extension) : Tree :=
  if e.hasStagedBody then e.method.body
  else .quote (e.method.body.spliceReserved (e.reserved v)) e.method.body.span

/-- The evidence parameters; there is no such group if no type parameter needs one. -/
def evidenceGroups (g : Generator) (inner : List TypeParam) (names : List Name) :
    List (List (ValueDef Tree Tree)) :=
  if inner.isEmpty then []
  else [List.zipWith (fun tp n => implicitParam n (g.evidenceType tp) g.span) inner names]

/-- The method that builds the code of a call. -/
def generator (v : Vocabulary) (e : Extension) (target : Target) (names : StagedNames) :
    MethodDef Tree Tree :=
  let g : Generator := { words := v, context := names.context, span := e.span }
  let (outer, inner) := splitTypeParams e.method.tparams target
  { mods := {}
    name := e.method.name
    tparams := outer ++ inner
    groups := [implicitParam names.context (.typeIdent v.context e.span) e.span]
      :: e.method.groups.map (·.map g.stagedParam) ++ evidenceGroups g inner names.evidence
    result := e.method.result.map g.stagedType
    body := .block [g.takeSelfTree names.selfTree, g.bindSelf names.selfTree target]
      (e.generatedBody v) e.span }

/-- The method that calls of the extension name; the host runs the generator in its place. -/
def forwarder (e : Extension) (target : Target) (group : Name) : MethodDef Tree Tree :=
  { e.method with
    mods.flags.isDeferred := true
    tparams := (splitTypeParams e.method.tparams target).2
    body := .select (.ident group e.span) e.method.name e.span }

/-- Wrapper class and companion of a staged extension. -/
def stagedTrees (v : Vocabulary) (e : Extension) (target : Target) (names : StagedNames) :
    List Tree :=
  let outer := (splitTypeParams e.method.tparams target).1
  [wrapperClass v names.group outer target (e.forwarder target names.group) e.span,
    .objectDef { mods := {}, name := names.group
                 body := [.methodDef (e.generator v target names) e.span] } e.span]

/-- Wrapper class of a runtime extension. -/
def runtimeTree (v : Vocabulary) (e : Extension) (target : Target) (group : Name) : Tree :=
  let (outer, inner) := splitTypeParams e.method.tparams target
  wrapperClass v group outer target { e.method with tparams := inner } e.span

end Extension

/-! ## 3. Effects -/

/-- What an expansion changes: the names in use, and the findings so far. -/
structure ExpandState where
  supply : NameSupply
  findings : List Finding := []

/-- A step of an expansion. -/
abbrev ExpandM := StateM ExpandState

namespace ExpandM

/-- Generates a name from a hint. -/
def fresh (hint : String) : ExpandM Name :=
  modifyGet fun s => let (n, supply) := s.supply.fresh hint; (n, { s with supply })

/-- Generates a name whose hint is the text of another name. -/
def freshFrom (base : Name) : ExpandM Name :=
  modifyGet fun s => let (n, supply) := s.supply.freshFrom base; (n, { s with supply })

/-- Takes a finding down. -/
def report (f : Finding) : ExpandM Unit :=
  modify fun s => { s with findings := s.findings ++ [f] }

/-- Takes faults down. -/
def reportFaults (fs : List Fault) : ExpandM Unit :=
  modify fun s => { s with findings := s.findings ++ fs.map .fault }

end ExpandM

namespace Extension

open ExpandM

/-- Generates the names of a staged extension. -/
def stagedNames (e : Extension) (target : Target) : ExpandM StagedNames := do
  let group ← freshFrom e.method.name
  let context ← fresh "c"
  let selfTree ← fresh "selfTree"
  let evidence ← (splitTypeParams e.method.tparams target).2.mapM fun _ => fresh "evidence"
  return { group, context, selfTree, evidence }

/-- Generates what replaces an extension that nothing speaks against. -/
def generate (v : Vocabulary) (e : Extension) (target : Target) : ExpandM (List Tree) := do
  match e.kind with
  | .staged => return e.stagedTrees v target (← e.stagedNames target)
  | .runtime =>
    let group ← freshFrom e.method.name
    report (.remark (.runtimeWrapper e.method.name e.span))
    return [e.runtimeTree v target group]

/-- What replaces an extension; nothing if something speaks against it. -/
def synthesize (v : Vocabulary) (e : Extension) : ExpandM (Option (List Tree)) :=
  match e.payload.asTarget?, e.faults v with
  | .ok target, [] => some <$> e.generate v target
  | _, faults => do
    reportFaults faults
    return none

/-- **A fault stops everything but its report.** -/
theorem synthesize_of_faults {v : Vocabulary} {e : Extension} (h : e.faults v ≠ [])
    (s : ExpandState) :
    (e.synthesize v).run s =
      (none, { s with findings := s.findings ++ (e.faults v).map .fault }) := by
  unfold synthesize
  split
  · contradiction
  · rfl

end Extension

end Enrich
