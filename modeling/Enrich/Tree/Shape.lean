import Enrich.Interner
import Enrich.Span
/-!
# One layer of syntax

`Shape α β` is a node of the syntax tree with holes: `β` stands where a subtree of the code goes
and `α` where the tree of an annotation goes.  The two are kept apart because passes over the code
leave annotations alone: an annotation is written in front of a definition, it is not part of
what the definition does.

Everything a pass has to know about the *form* of the syntax is stated here once, on one layer and
without recursion: how the holes are filled anew (`Shape.bimap`) and in which order they stand
(`Shape.children`, `Shape.annotations`).
-/

namespace Enrich

variable {α β γ δ : Type}

/-! ## 1. The parts of a definition -/

/-- The flags in front of a definition. -/
structure Flags where
  isPrivate : Bool := false
  isImplicit : Bool := false
  /-- Left to the host's code-generation stage. -/
  isDeferred : Bool := false
  /-- A variable rather than a value. -/
  isMutable : Bool := false
  /-- A parameter of a function, a method or a constructor. -/
  isParam : Bool := false
  isCase : Bool := false
deriving DecidableEq, Repr, Inhabited

namespace Flags

/-- The flags as a list, from the lowest bit to the highest. -/
def toList (f : Flags) : List Bool :=
  [f.isPrivate, f.isImplicit, f.isDeferred, f.isMutable, f.isParam, f.isCase]

/-- The flags as a number, one bit each. -/
def bits (f : Flags) : Nat := f.toList.foldr (fun b n => b.toNat + 2 * n) 0

/-- Are all the flags of `g` set in `f`? -/
def contains (f g : Flags) : Bool := (f.toList.zip g.toList).all fun (a, b) => a || !b

end Flags

/-- Flags and annotations in front of a definition. -/
structure Modifiers (α : Type) where
  flags : Flags := {}
  annotations : List α := []
deriving DecidableEq, Repr

/-- A constant written in the code.  The text of a string is an interned name. -/
inductive Literal where
  | int (value : Int)
  | bool (value : Bool)
  | str (text : Name)
  | unit
deriving DecidableEq, Repr

/-- A type parameter of a method or a class. -/
structure TypeParam where
  name : Name
  span : Span
deriving DecidableEq, Repr

/-- A value, a variable or a parameter. -/
structure ValueDef (α β : Type) where
  mods : Modifiers α
  name : Name
  /-- The declared type, if one is written. -/
  tpe : Option β
  /-- What the value is defined as, if anything. -/
  init : Option β
  span : Span
deriving DecidableEq, Repr

/-- A method, with its parameters in groups. -/
structure MethodDef (α β : Type) where
  mods : Modifiers α
  name : Name
  tparams : List TypeParam
  groups : List (List (ValueDef α β))
  /-- The declared result type, if one is written. -/
  result : Option β
  body : β
deriving DecidableEq, Repr

/-- A class with its one constructor. -/
structure ClassDef (α β : Type) where
  mods : Modifiers α
  name : Name
  tparams : List TypeParam
  params : List (ValueDef α β)
  body : List β
deriving DecidableEq, Repr

/-- A singleton object. -/
structure ObjectDef (α β : Type) where
  mods : Modifiers α
  name : Name
  body : List β
deriving DecidableEq, Repr

/-- One arm of a case distinction. -/
structure Arm (β : Type) where
  pat : β
  guard : Option β
  body : β
deriving DecidableEq, Repr

/-! ## 2. The layers -/

/-- A node of the syntax tree whose subtrees are left open. -/
inductive Shape (α β : Type) where
  /-- A reference to a value. -/
  | ident (name : Name)
  /-- A reference to a type. -/
  | typeIdent (name : Name)
  | literal (value : Literal)
  /-- The member `name` of `qual`. -/
  | select (qual : β) (name : Name)
  | apply (fn : β) (args : List β)
  /-- Type arguments given to a value. -/
  | typeApply (fn : β) (args : List β)
  /-- Type arguments given to a type. -/
  | appliedType (tpe : β) (args : List β)
  /-- The constructor of a class. -/
  | new (tpe : β)
  | block (stats : List β) (result : β)
  | matchOn (scrutinee : β) (arms : List (Arm β))
  /-- A pattern that names what it matches. -/
  | bind (name : Name) (pat : β)
  | wildcard
  | lambda (params : List (ValueDef α β)) (body : β)
  | valueDef (d : ValueDef α β)
  | methodDef (d : MethodDef α β)
  | classDef (d : ClassDef α β)
  | objectDef (d : ObjectDef α β)
  | package (name : Name) (stats : List β)
  /-- Code to be run at a later stage. -/
  | quote (inner : β)
  /-- A staged value used inside a quotation. -/
  | splice (inner : β)
  /-- The place of the captured value at position `index`. -/
  | tag (index : Nat)
deriving DecidableEq, Repr

/-- The names of the layers. -/
inductive Kind where
  | ident | typeIdent | literal | select | apply | typeApply | appliedType | new | block | matchOn
  | bind | wildcard | lambda | valueDef | methodDef | classDef | objectDef | package | quote
  | splice | tag
deriving DecidableEq, Repr

/-- The name of a layer. -/
def Shape.kind : Shape α β → Kind
  | .ident _ => .ident
  | .typeIdent _ => .typeIdent
  | .literal _ => .literal
  | .select _ _ => .select
  | .apply _ _ => .apply
  | .typeApply _ _ => .typeApply
  | .appliedType _ _ => .appliedType
  | .new _ => .new
  | .block _ _ => .block
  | .matchOn _ _ => .matchOn
  | .bind _ _ => .bind
  | .wildcard => .wildcard
  | .lambda _ _ => .lambda
  | .valueDef _ => .valueDef
  | .methodDef _ => .methodDef
  | .classDef _ => .classDef
  | .objectDef _ => .objectDef
  | .package _ _ => .package
  | .quote _ => .quote
  | .splice _ => .splice
  | .tag _ => .tag

/-! ## 3. Filling the holes anew -/

namespace Modifiers

/-- Fills the annotation holes anew. -/
def map (f : α → γ) (m : Modifiers α) : Modifiers γ := ⟨m.flags, m.annotations.map f⟩

/-- Are all the flags of `flags` set? -/
def has (m : Modifiers α) (flags : Flags) : Bool := m.flags.contains flags

end Modifiers

namespace ValueDef

/-- Fills the holes anew: `f` at annotations, `g` at code. -/
def bimap (f : α → γ) (g : β → δ) (d : ValueDef α β) : ValueDef γ δ :=
  ⟨d.mods.map f, d.name, d.tpe.map g, d.init.map g, d.span⟩

/-- The code in a value definition: its type, then what it is defined as. -/
def children (d : ValueDef α β) : List β := d.tpe.toList ++ d.init.toList

end ValueDef

namespace MethodDef

/-- The parameters of all groups, from left to right. -/
def params (d : MethodDef α β) : List (ValueDef α β) := d.groups.flatten

/-- Fills the holes anew: `f` at annotations, `g` at code. -/
def bimap (f : α → γ) (g : β → δ) (d : MethodDef α β) : MethodDef γ δ :=
  ⟨d.mods.map f, d.name, d.tparams, d.groups.map (·.map (·.bimap f g)), d.result.map g, g d.body⟩

/-- The code in a method: parameters, result type, body. -/
def children (d : MethodDef α β) : List β :=
  d.params.flatMap ValueDef.children ++ (d.result.toList ++ [d.body])

end MethodDef

namespace ClassDef

/-- Fills the holes anew: `f` at annotations, `g` at code. -/
def bimap (f : α → γ) (g : β → δ) (d : ClassDef α β) : ClassDef γ δ :=
  ⟨d.mods.map f, d.name, d.tparams, d.params.map (·.bimap f g), d.body.map g⟩

/-- The code in a class: constructor parameters, then members. -/
def children (d : ClassDef α β) : List β := d.params.flatMap ValueDef.children ++ d.body

end ClassDef

namespace ObjectDef

/-- Fills the holes anew: `f` at annotations, `g` at code. -/
def bimap (f : α → γ) (g : β → δ) (d : ObjectDef α β) : ObjectDef γ δ :=
  ⟨d.mods.map f, d.name, d.body.map g⟩

end ObjectDef

namespace Arm

/-- Fills the holes anew. -/
def map (g : β → δ) (a : Arm β) : Arm δ := ⟨g a.pat, a.guard.map g, g a.body⟩

/-- The code in an arm: pattern, guard, body. -/
def children (a : Arm β) : List β := a.pat :: (a.guard.toList ++ [a.body])

end Arm

namespace Shape

/-- Fills the holes anew: `f` at annotations, `g` at code. -/
def bimap (f : α → γ) (g : β → δ) : Shape α β → Shape γ δ
  | .ident n => .ident n
  | .typeIdent n => .typeIdent n
  | .literal v => .literal v
  | .select q n => .select (g q) n
  | .apply fn args => .apply (g fn) (args.map g)
  | .typeApply fn args => .typeApply (g fn) (args.map g)
  | .appliedType t args => .appliedType (g t) (args.map g)
  | .new t => .new (g t)
  | .block stats r => .block (stats.map g) (g r)
  | .matchOn s arms => .matchOn (g s) (arms.map (·.map g))
  | .bind n p => .bind n (g p)
  | .wildcard => .wildcard
  | .lambda ps b => .lambda (ps.map (·.bimap f g)) (g b)
  | .valueDef d => .valueDef (d.bimap f g)
  | .methodDef d => .methodDef (d.bimap f g)
  | .classDef d => .classDef (d.bimap f g)
  | .objectDef d => .objectDef (d.bimap f g)
  | .package n stats => .package n (stats.map g)
  | .quote t => .quote (g t)
  | .splice t => .splice (g t)
  | .tag i => .tag i

/-- Fills the code holes anew and leaves the annotations. -/
def map (g : β → δ) (s : Shape α β) : Shape α δ := s.bimap id g

/-- The code in a layer, in the order in which every pass meets it. -/
def children : Shape α β → List β
  | .ident _ | .typeIdent _ | .literal _ | .wildcard | .tag _ => []
  | .select t _ | .new t | .bind _ t | .quote t | .splice t => [t]
  | .apply t args | .typeApply t args | .appliedType t args => t :: args
  | .block stats r => stats ++ [r]
  | .matchOn s arms => s :: arms.flatMap Arm.children
  | .lambda ps b => ps.flatMap ValueDef.children ++ [b]
  | .valueDef d => d.children
  | .methodDef d => d.children
  | .classDef d => d.children
  | .objectDef d => d.body
  | .package _ stats => stats

/-- The annotations in a layer: those of a definition, then those of its parameters. -/
def annotations : Shape α β → List α
  | .lambda ps _ => ps.flatMap (·.mods.annotations)
  | .valueDef d => d.mods.annotations
  | .methodDef d => d.mods.annotations ++ d.params.flatMap (·.mods.annotations)
  | .classDef d => d.mods.annotations ++ d.params.flatMap (·.mods.annotations)
  | .objectDef d => d.mods.annotations
  | _ => []

end Shape

end Enrich
