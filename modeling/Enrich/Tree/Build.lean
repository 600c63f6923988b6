import Enrich.Tree.Basic
/-!
# Building and reading trees

One constructor per form of syntax that the expander and the emitter produce.  What is built here
carries no attached type: types come from a typing pass, and built code has not met one.
-/

namespace Enrich

variable {α β : Type}

/-- A parameter of a declared type. -/
def ValueDef.param (name : Name) (tpe : β) (span : Span) : ValueDef α β where
  mods := { flags := { isParam := true } }
  name := name
  tpe := some tpe
  init := none
  span := span

/-- A value of no declared type. -/
def ValueDef.ofInit (name : Name) (init : β) (span : Span) : ValueDef α β where
  mods := {}
  name := name
  tpe := none
  init := some init
  span := span

namespace Tree

/-! ## 1. Building -/

/-- A node without an attached type. -/
def ofShape (shape : Shape Tree Tree) (span : Span) : Tree := ⟨shape, span, none⟩

def ident (name : Name) : Span → Tree := ofShape (.ident name)

def typeIdent (name : Name) : Span → Tree := ofShape (.typeIdent name)

def select (qual : Tree) (name : Name) : Span → Tree := ofShape (.select qual name)

def apply (fn : Tree) (args : List Tree) : Span → Tree := ofShape (.apply fn args)

def typeApply (fn : Tree) (args : List Tree) : Span → Tree := ofShape (.typeApply fn args)

def appliedType (tpe : Tree) (args : List Tree) : Span → Tree := ofShape (.appliedType tpe args)

def block (stats : List Tree) (result : Tree) : Span → Tree := ofShape (.block stats result)

def matchOn (scrutinee : Tree) (arms : List (Arm Tree)) : Span → Tree :=
  ofShape (.matchOn scrutinee arms)

def bind (name : Name) (pat : Tree) : Span → Tree := ofShape (.bind name pat)

def wildcard : Span → Tree := ofShape .wildcard

def quote (inner : Tree) : Span → Tree := ofShape (.quote inner)

def splice (inner : Tree) : Span → Tree := ofShape (.splice inner)

def tag (index : Nat) : Span → Tree := ofShape (.tag index)

/-- A value definition as a tree; the tree stands where the definition stands. -/
def valueDef (d : ValueDef Tree Tree) : Tree := ofShape (.valueDef d) d.span

def methodDef (d : MethodDef Tree Tree) : Span → Tree := ofShape (.methodDef d)

def classDef (d : ClassDef Tree Tree) : Span → Tree := ofShape (.classDef d)

def objectDef (d : ObjectDef Tree Tree) : Span → Tree := ofShape (.objectDef d)

/-! ## 2. Reading -/

/-- The form of a node. -/
def kind (t : Tree) : Kind := t.shape.kind

/-- The modifiers of a definition. -/
def modifiers? (t : Tree) : Option (Modifiers Tree) :=
  match t.shape with
  | .valueDef d => some d.mods
  | .methodDef d => some d.mods
  | .classDef d => some d.mods
  | .objectDef d => some d.mods
  | _ => none

/-- Is this a definition, as opposed to an expression, a pattern or a package? -/
def isDefinition (t : Tree) : Bool := t.modifiers?.isSome

end Tree

end Enrich
