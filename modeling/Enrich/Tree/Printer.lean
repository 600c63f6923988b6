import Enrich.Text.Quoted
import Enrich.Tree.Build
/-!
# Trees in writing

A tree is written on one line, close to how its source would look; the text serves messages and
is not meant to be read back.

Writing goes through a list of pieces.  A piece is fixed text, the text of a name, or the text of a
string constant in quotes, so the layout of a tree is known before any interner is: only
`Piece.text` looks a name up.

* `Tree.pieces_eq`: the equation of the layout.
-/

namespace Enrich

/-- A piece of a written tree. -/
inductive Piece where
  | text (s : String)
  /-- A name, written as it is. -/
  | name (n : Name)
  /-- The text of a string constant, written in quotes. -/
  | quoted (n : Name)
deriving DecidableEq, Repr

/-- A piece in writing. -/
def Piece.write (i : Interner) : Piece → String
  | .text s => s
  | .name n => i.text n
  | .quoted n => Text.quote (i.text n)

/-- Pieces in writing, without anything between them. -/
def writePieces (i : Interner) (ps : List Piece) : String := String.join (ps.map (Piece.write i))

/-! ## 1. Layout of one layer

In the layers below, each tree comes with its own pieces. -/

namespace Layout

/-- A tree with its pieces. -/
abbrev Written := Tree × List Piece

/-- With a comma and a space between each two. -/
def commas (xs : List (List Piece)) : List Piece := [Piece.text ", "].intercalate xs

/-- Each followed by a semicolon and a space. -/
def semicolons (xs : List (List Piece)) : List Piece := xs.flatMap (· ++ [.text "; "])

/-- In round brackets. -/
def round (xs : List (List Piece)) : List Piece := .text "(" :: (commas xs ++ [.text ")"])

/-- In square brackets. -/
def square (xs : List (List Piece)) : List Piece := .text "[" :: (commas xs ++ [.text "]"])

/-- After fixed text, if it is there at all. -/
def after (lead : String) : Option Written → List Piece
  | none => []
  | some t => .text lead :: t.2

/-- Is this `new T` or `new T(…)`? -/
def isConstructorCall (t : Tree) : Bool :=
  match t.shape with
  | .new _ => true
  | .apply fn _ =>
    match fn.shape with
    | .new _ => true
    | _ => false
  | _ => false

/-- An annotation is a constructor call that is written without its `new`. -/
def annotated (a : Written) : List Piece :=
  .text "@" :: ((if isConstructorCall a.1 then a.2.drop 1 else a.2) ++ [.text " "])

/-- The flags that are written, in the order in which they are written. -/
def flagWords (f : Flags) : List Piece :=
  [(f.isPrivate, "private "), (f.isImplicit, "implicit "), (f.isCase, "case "),
    (f.isDeferred, "macro ")].filterMap
    fun (isSet, word) => if isSet then some (.text word) else none

def modifiers (m : Modifiers Written) : List Piece :=
  m.annotations.flatMap annotated ++ flagWords m.flags

def literal : Literal → List Piece
  | .int v => [.text (toString v)]
  | .bool true => [.text "true"]
  | .bool false => [.text "false"]
  | .str n => [.quoted n]
  | .unit => [.text "()"]

/-- A name and its type, if one is declared. -/
def typed (name : Name) (tpe : Option Written) : List Piece := .name name :: after ": " tpe

/-- A parameter group; one implicit parameter makes the group implicit. -/
def group (ps : List (ValueDef Written Written)) : List Piece :=
  let lead := if ps.any (·.mods.flags.isImplicit) then [Piece.text "implicit "] else []
  .text "(" :: (lead ++ commas (ps.map fun p => typed p.name p.tpe) ++ [.text ")"])

def typeParams : List TypeParam → List Piece
  | [] => []
  | tps => square (tps.map fun tp => [.name tp.name])

/-- A parameter is written as its name and type, whatever else it has. -/
def valueDef (d : ValueDef Written Written) : List Piece :=
  if d.mods.flags.isParam then typed d.name d.tpe
  else
    modifiers d.mods ++ [.text (if d.mods.flags.isMutable then "var " else "val ")]
      ++ typed d.name d.tpe ++ after " = " d.init

/-- The members of a class, an object or a package. -/
def members (ts : List Written) : List Piece :=
  .text " \x7b " :: (semicolons (ts.map Prod.snd) ++ [.text "\x7d"])

def methodDef (d : MethodDef Written Written) : List Piece :=
  modifiers d.mods ++ [.text "def ", .name d.name] ++ typeParams d.tparams
    ++ d.groups.flatMap group ++ after ": " d.result ++ .text " = " :: d.body.2

def classDef (d : ClassDef Written Written) : List Piece :=
  modifiers d.mods ++ [.text "class ", .name d.name] ++ typeParams d.tparams
    ++ group d.params ++ members d.body

def objectDef (d : ObjectDef Written Written) : List Piece :=
  modifiers d.mods ++ [.text "object ", .name d.name] ++ members d.body

def arm (a : Arm Written) : List Piece :=
  .text "case " :: (a.pat.2 ++ after " if " a.guard ++ .text " => " :: a.body.2)

/-- The pieces of one layer. -/
def layer : Shape Written Written → List Piece
  | .ident n | .typeIdent n => [.name n]
  | .literal v => literal v
  | .select t n => t.2 ++ [.text ".", .name n]
  | .apply t args => t.2 ++ round (args.map Prod.snd)
  | .typeApply t args | .appliedType t args => t.2 ++ square (args.map Prod.snd)
  | .new t => .text "new " :: t.2
  | .block stats r =>
    .text "\x7b " :: (semicolons (stats.map Prod.snd) ++ r.2 ++ [.text " \x7d"])
  | .matchOn t arms =>
    t.2 ++ .text " match \x7b " :: (semicolons (arms.map arm) ++ [.text "\x7d"])
  | .bind n p => .name n :: (if p.1.kind = .wildcard then [] else .text " @ " :: p.2)
  | .wildcard => [.text "_"]
  | .lambda ps b => group ps ++ .text " => " :: b.2
  | .valueDef d => valueDef d
  | .methodDef d => methodDef d
  | .classDef d => classDef d
  | .objectDef d => objectDef d
  | .package n stats => .text "package " :: .name n :: members stats
  | .quote t => .text "'\x7b " :: (t.2 ++ [.text " \x7d"])
  | .splice t => .text "$\x7b " :: (t.2 ++ [.text " \x7d"])
  | .tag i => [.text "#capture(", .text (toString i), .text ")"]

end Layout

/-! ## 2. All layers -/

namespace Tree

/-- The pieces of a tree, annotations included. -/
def pieces : Tree → List Piece := foldAll fun _ s => Layout.layer s

/-- A tree is written by its layer, from what is written of the trees in it. -/
theorem pieces_eq (t : Tree) :
    t.pieces =
      Layout.layer (t.shape.bimap (fun a => (a, a.pieces)) (fun c => (c, c.pieces))) := by
  rw [pieces, foldAll_eq]

/-- A tree in writing. -/
def print (i : Interner) (t : Tree) : String := writePieces i t.pieces

end Tree

end Enrich
