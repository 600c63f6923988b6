import Enrich.Tree.AttachedType
/-!
# What a tree carries besides the code

Apart from the code itself a tree says where the code was read and which types a pass has attached.
`Tree.bare` takes both away, everywhere in the tree.  Two trees that differ in nothing else become
the same.  `Tree.untyped` takes the attached types alone, and like `Tree.bare` it enters the
annotations, which `Tree.dropTypes` does not.

* `Tree.bare_eq`, `Tree.untyped_eq`: the equations of the two passes.
* `Tree.bare_dropTypes`: attached types are among what is taken away.
-/

namespace Enrich

variable {α β γ δ : Type}

/-! ## 1. One layer -/

/-- A type parameter that was read nowhere. -/
def TypeParam.bare (p : TypeParam) : TypeParam := { p with span := .nowhere }

/-- A value definition that was read nowhere. -/
def ValueDef.bare (d : ValueDef α β) : ValueDef α β := { d with span := .nowhere }

/-- A method whose parameters were read nowhere. -/
def MethodDef.bare (d : MethodDef α β) : MethodDef α β :=
  { d with tparams := d.tparams.map .bare, groups := d.groups.map (·.map .bare) }

/-- A class whose parameters were read nowhere. -/
def ClassDef.bare (d : ClassDef α β) : ClassDef α β :=
  { d with tparams := d.tparams.map .bare, params := d.params.map .bare }

namespace Shape

/-- A layer without the spans in it. -/
def bare : Shape α β → Shape α β
  | .lambda ps b => .lambda (ps.map .bare) b
  | .valueDef d => .valueDef d.bare
  | .methodDef d => .methodDef d.bare
  | .classDef d => .classDef d.bare
  | s => s

theorem bare_bimap (f : α → γ) (g : β → δ) (s : Shape α β) :
    (s.bimap f g).bare = s.bare.bimap f g := by
  have hparams : ∀ ps : List (ValueDef α β),
      (ps.map fun p => p.bimap f g).map ValueDef.bare =
        (ps.map ValueDef.bare).map fun p => p.bimap f g := fun ps => by
    rw [List.map_map, List.map_map]
    rfl
  cases s with
  | methodDef d =>
    simp only [bimap, bare, MethodDef.bare, MethodDef.bimap, List.map_map, Function.comp_def]
    rfl
  | classDef d => simp only [bimap, bare, ClassDef.bare, ClassDef.bimap, hparams]
  | lambda ps b => simp only [bimap, bare, hparams]
  | _ => rfl

theorem kind_bare (s : Shape α β) : s.bare.kind = s.kind := by cases s <;> rfl

end Shape

/-! ## 2. All layers -/

namespace Tree

/-- The tree without its spans and attached types, annotations included. -/
def bare : Tree → Tree :=
  foldAll fun _ s => ⟨(s.bimap Prod.snd Prod.snd).bare, .nowhere, none⟩

/-- The equation of bareness: no span and no type is left, at any depth. -/
theorem bare_eq (t : Tree) : t.bare = ⟨(t.shape.bimap bare bare).bare, .nowhere, none⟩ := by
  rw [bare, foldAll_eq, Shape.bimap_bimap]
  rfl

/-- The tree without its attached types, annotations included. -/
def untyped : Tree → Tree :=
  foldAll fun t s => ⟨s.bimap Prod.snd Prod.snd, t.span, none⟩

/-- The equation of untyping: spans stay. -/
theorem untyped_eq (t : Tree) : t.untyped = ⟨t.shape.bimap untyped untyped, t.span, none⟩ := by
  rw [untyped, foldAll_eq, Shape.bimap_bimap]
  rfl

theorem kind_bare (t : Tree) : t.bare.kind = t.kind := by
  rw [bare_eq, kind, kind, Shape.kind_bare]
  cases t.shape <;> rfl

/-- Dropping the types of the code takes away a part of what `bare` takes away. -/
theorem bare_dropTypes (t : Tree) : t.dropTypes.bare = t.bare := by
  induction t using induction with
  | step t _ ih =>
    have hbelow : (t.shape.map dropTypes).bimap bare bare = t.shape.bimap bare bare := by
      rw [Shape.map, Shape.bimap_bimap]
      exact Shape.bimap_congr (fun _ _ => rfl) ih
    rw [bare_eq, bare_eq t, dropTypes_eq, hbelow]

/-- The same for the types that `untyped` takes away. -/
theorem untyped_dropTypes (t : Tree) : t.dropTypes.untyped = t.untyped := by
  induction t using induction with
  | step t _ ih =>
    have hbelow : (t.shape.map dropTypes).bimap untyped untyped =
        t.shape.bimap untyped untyped := by
      rw [Shape.map, Shape.bimap_bimap]
      exact Shape.bimap_congr (fun _ _ => rfl) ih
    rw [untyped_eq, untyped_eq t, dropTypes_eq, hbelow]

end Tree

end Enrich
