import Enrich.Tree.Replace
/-!
# Reserved names

Inside the body of a staged extension the receiver and the value parameters are staged values.  A
reference to one of them has to be spliced, and `Tree.spliceReserved` does so without looking at
scopes.  That is right as long as the body declares none of those names anew, which is what
`Tree.redeclarations` finds out.

* `Tree.bindings_eq`: the equation of the list of declarations.
* `Tree.spliceReserved_of_ident`, `Tree.spliceReserved_of_not_ident`: the equations of splicing.
-/

namespace Enrich

/-- The names that a body may mention but not declare. -/
structure ReservedNames where
  names : List Name
deriving DecidableEq

namespace ReservedNames

/-- The name of the receiver, then the names of the value parameters, each once. -/
def ofMethod {α β : Type} (selfName : Name) (d : MethodDef α β) : ReservedNames :=
  ⟨d.params.foldl (fun ns p => if ns.contains p.name then ns else ns ++ [p.name]) [selfName]⟩

/-- Is the name reserved? -/
def contains (r : ReservedNames) (n : Name) : Bool := r.names.contains n

end ReservedNames

/-! ## 1. Declarations -/

/-- What declares a name. -/
inductive BindingKind where
  /-- A value, a variable or a parameter. -/
  | value
  | method
  | object
  /-- A pattern that names what it matches. -/
  | pattern
deriving DecidableEq, Repr

def BindingKind.text : BindingKind → String
  | .value => "value"
  | .method => "method"
  | .object => "object"
  | .pattern => "pattern binding"

/-- The declaration of a name. -/
structure Binding where
  name : Name
  kind : BindingKind
  span : Span
deriving DecidableEq, Repr

/-- The declarations in a value definition: its own, then those inside. -/
def ValueDef.bindings {α β : Type} (inside : β → List Binding) (d : ValueDef α β) : List Binding :=
  ⟨d.name, .value, d.span⟩ :: d.children.flatMap inside

/-- The declarations in one layer that stands at `span`, in reading order. -/
def Shape.bindings {α β : Type} (inside : β → List Binding) (span : Span) :
    Shape α β → List Binding
  | .lambda ps b => ps.flatMap (·.bindings inside) ++ inside b
  | .valueDef d => d.bindings inside
  | .methodDef d =>
    ⟨d.name, .method, span⟩ ::
      (d.params.flatMap (·.bindings inside) ++ d.result.toList.flatMap inside ++ inside d.body)
  | .classDef d => d.params.flatMap (·.bindings inside) ++ d.body.flatMap inside
  | .objectDef d => ⟨d.name, .object, span⟩ :: d.body.flatMap inside
  | .bind n p => ⟨n, .pattern, span⟩ :: inside p
  | s => s.children.flatMap inside

section

variable {α β γ δ : Type} (f : α → δ) (g : β → γ) (inside : γ → List Binding)

theorem ValueDef.bindings_bimap (d : ValueDef α β) :
    (d.bimap f g).bindings inside = d.bindings fun b => inside (g b) := by
  rw [bindings, children_bimap, List.flatMap_map]
  rfl

theorem Shape.bindings_bimap (span : Span) (s : Shape α β) :
    (s.bimap f g).bindings inside span = s.bindings (fun b => inside (g b)) span := by
  have hps : ∀ ps : List (ValueDef α β), (ps.map (·.bimap f g)).flatMap (·.bindings inside) =
      ps.flatMap (·.bindings fun b => inside (g b)) := fun ps => by
    simp [List.flatMap_map, ValueDef.bindings_bimap]
  cases s with
  | lambda ps b => simp [bimap, bindings, hps]
  | valueDef d => exact ValueDef.bindings_bimap f g inside d
  | methodDef d =>
    simp only [bimap, bindings, MethodDef.params_bimap, hps]
    cases hr : d.result <;> simp [MethodDef.bimap, hr]
  | classDef d => simp [bimap, bindings, ClassDef.bimap, hps, List.flatMap_map]
  | objectDef d => simp [bimap, bindings, ObjectDef.bimap, List.flatMap_map]
  | bind n p => rfl
  | _ =>
    simp [bimap, bindings, children, List.flatMap_map, Arm.children_map, List.flatMap_assoc]

end

namespace Tree

/-- All declarations of values, methods, objects and pattern names in the code of a tree, in
reading order. -/
def bindings : Tree → List Binding := fold fun t s => s.bindings Prod.snd t.span

/-- The equation of the bindings in a tree. -/
theorem bindings_eq (t : Tree) : t.bindings = t.shape.bindings bindings t.span := by
  rw [bindings, fold_eq, Shape.map, Shape.bindings_bimap]

/-- The declarations of a body that take a reserved name. -/
def redeclarations (r : ReservedNames) (body : Tree) : List Binding :=
  body.bindings.filter fun b => r.contains b.name

/-! ## 2. Splicing -/

/-- The splice of a reference to a reserved name. -/
def reservedSplice? (r : ReservedNames) (t : Tree) : Option Tree :=
  match t.shape with
  | .ident n => if r.contains n then some (splice t t.span) else none
  | _ => none

/-- Splices every reference to a reserved name. -/
def spliceReserved (r : ReservedNames) (body : Tree) : Tree := body.replace (reservedSplice? r)

/-- A reference to a reserved name is put into a splice of its own span. -/
theorem spliceReserved_of_ident {r : ReservedNames} {t : Tree} {n : Name}
    (h : t.shape = .ident n) (hn : r.contains n = true) :
    t.spliceReserved r = splice t t.span :=
  replace_of_some (by simp [reservedSplice?, h, hn])

/-- All else is kept, with what is in it spliced. -/
theorem spliceReserved_of_not_ident {r : ReservedNames} {t : Tree}
    (h : ∀ n, t.shape = .ident n → r.contains n = false) :
    t.spliceReserved r = ⟨t.shape.map (spliceReserved r), t.span, t.ty⟩ := by
  refine replace_of_none ?_
  unfold reservedSplice?
  split
  · rename_i n hs
    simp [h n hs]
  · rfl

end Tree

end Enrich
