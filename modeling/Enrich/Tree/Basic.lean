import Enrich.Tree.Shape.Agree
import Enrich.Tree.Shape.Laws
/-!
# Syntax trees

A tree is one layer of syntax whose holes are filled with trees, together with its span and, where
an earlier typing pass has left one, the name of its type.

There is one recursion over trees, `Tree.foldAll`: at every node it hands over each subtree, those
inside annotations included, paired with the result for that subtree.  `Tree.fold` is the same for
the passes that leave annotations alone.  A pass is then a function on *one layer*, and its defining
equation is `Tree.fold_eq` at that function.

* `Tree.induction`: what holds of a tree whenever it holds of its children and of its annotations
  holds of every tree.
* `Tree.foldAll_eq`, `Tree.fold_eq`: the equations of the two recursions.
* `Tree.same_iff`: the comparison of trees layer by layer decides equality.
-/

namespace Enrich

/-- A syntax tree. -/
structure Tree where
  shape : Shape Tree Tree
  span : Span
  /-- The type that an earlier pass has attached. -/
  ty : Option Name

namespace Tree

/-- A tree is what it is made of. -/
@[simp] theorem eta (t : Tree) : (⟨t.shape, t.span, t.ty⟩ : Tree) = t := by
  cases t
  rfl

/-! ## 1. Induction -/

section

set_option linter.unusedSectionVars false

variable {P : Tree → Prop}
  (step : ∀ t : Tree, (∀ a ∈ t.shape.annotations, P a) → (∀ c ∈ t.shape.children, P c) → P t)
include step

mutual

/-- **Induction over trees.**  A property passes from the children and the annotations of a node
to the node, hence it holds of every tree. -/
theorem induction : ∀ t : Tree, P t
  | ⟨s, sp, ty⟩ => step ⟨s, sp, ty⟩ (induction_annotations s) (induction_children s)

/-- What holds of every tree holds of the annotations of a layer.  The lemmas from here on are one
recursion, split by the types that a tree is nested through. -/
private theorem induction_annotations : ∀ s : Shape Tree Tree, ∀ a ∈ s.annotations, P a
  | .ident _ | .typeIdent _ | .literal _ | .select _ _ | .apply _ _ | .typeApply _ _
  | .appliedType _ _ | .new _ | .block _ _ | .matchOn _ _ | .bind _ _ | .wildcard | .package _ _
  | .quote _ | .splice _ | .tag _ => by simp [Shape.annotations]
  | .lambda ps _ => (induction_values ps).1
  | .valueDef ⟨m, _, _, _, _⟩ => induction_mods m
  | .methodDef ⟨m, _, _, gs, _, _⟩ => fun a ha =>
    (List.mem_append.mp ha).elim (induction_mods m a) ((induction_groups gs).1 a)
  | .classDef ⟨m, _, _, ps, _⟩ => fun a ha =>
    (List.mem_append.mp ha).elim (induction_mods m a) ((induction_values ps).1 a)
  | .objectDef ⟨m, _, _⟩ => induction_mods m

/-- It holds of the code in a layer. -/
private theorem induction_children : ∀ s : Shape Tree Tree, ∀ c ∈ s.children, P c
  | .ident _ | .typeIdent _ | .literal _ | .wildcard | .tag _ => by simp [Shape.children]
  | .select t _ | .new t | .bind _ t | .quote t | .splice t => by
    simpa [Shape.children] using induction t
  | .apply t args | .typeApply t args | .appliedType t args => by
    simpa [Shape.children] using ⟨induction t, induction_trees args⟩
  | .block stats r => by
    simpa [Shape.children, or_imp, forall_and] using ⟨induction_trees stats, induction r⟩
  | .matchOn t as => by
    simpa [Shape.children] using ⟨induction t, fun c a ha hc => induction_arms as a ha c hc⟩
  | .lambda ps b => fun c hc => by
    rcases List.mem_append.mp hc with hc | hc
    · exact (induction_values ps).2 c hc
    · exact List.mem_singleton.mp hc ▸ induction b
  | .valueDef d => (induction_value d).2
  | .methodDef ⟨_, _, _, gs, r, b⟩ => fun c hc => by
    simp only [Shape.children, MethodDef.children, List.mem_append, List.mem_singleton] at hc
    rcases hc with hc | hc | hc
    · exact (induction_groups gs).2 c hc
    · exact induction_option r c hc
    · exact hc ▸ induction b
  | .classDef ⟨_, _, _, ps, b⟩ => fun c hc =>
    (List.mem_append.mp hc).elim ((induction_values ps).2 c) (induction_trees b c)
  | .objectDef ⟨_, _, b⟩ => induction_trees b
  | .package _ stats => induction_trees stats

/-- It holds of the members of a list. -/
private theorem induction_trees : ∀ l : List Tree, ∀ c ∈ l, P c
  | [] => by simp
  | t :: l => by simpa using ⟨induction t, induction_trees l⟩

private theorem induction_option : ∀ o : Option Tree, ∀ c ∈ o.toList, P c
  | none => by simp
  | some t => by simpa using induction t

private theorem induction_mods : ∀ m : Modifiers Tree, ∀ a ∈ m.annotations, P a
  | ⟨_, as⟩ => induction_trees as

/-- It holds of the annotations and the code of a value definition. -/
private theorem induction_value : ∀ d : ValueDef Tree Tree,
    (∀ a ∈ d.mods.annotations, P a) ∧ ∀ c ∈ d.children, P c
  | ⟨m, _, t, i, _⟩ => ⟨induction_mods m, fun c hc =>
    (List.mem_append.mp hc).elim (induction_option t c) (induction_option i c)⟩

private theorem induction_values : ∀ l : List (ValueDef Tree Tree),
    (∀ a ∈ l.flatMap (·.mods.annotations), P a) ∧ ∀ c ∈ l.flatMap ValueDef.children, P c
  | [] => by simp
  | d :: l => by
    have hd := induction_value d
    have hl := induction_values l
    simp only [List.flatMap_cons, List.mem_append]
    exact ⟨fun a ha => ha.elim (hd.1 a) (hl.1 a), fun c hc => hc.elim (hd.2 c) (hl.2 c)⟩

private theorem induction_groups : ∀ l : List (List (ValueDef Tree Tree)),
    (∀ a ∈ l.flatten.flatMap (·.mods.annotations), P a) ∧
      ∀ c ∈ l.flatten.flatMap ValueDef.children, P c
  | [] => by simp
  | g :: l => by
    have hg := induction_values g
    have hl := induction_groups l
    simp only [List.flatten_cons, List.flatMap_append, List.mem_append]
    exact ⟨fun a ha => ha.elim (hg.1 a) (hl.1 a), fun c hc => hc.elim (hg.2 c) (hl.2 c)⟩

private theorem induction_arms : ∀ l : List (Arm Tree), ∀ a ∈ l, ∀ c ∈ a.children, P c
  | [] => by simp
  | ⟨p, g, b⟩ :: l => by
    simp only [List.mem_cons, forall_eq_or_imp]
    refine ⟨fun c hc => ?_, induction_arms l⟩
    simp only [Arm.children, List.mem_cons, List.mem_append, List.not_mem_nil, or_false] at hc
    rcases hc with hc | hc | hc
    · exact hc ▸ induction p
    · exact induction_option g c hc
    · exact hc ▸ induction b

end

end

/-! ## 2. Recursion -/

section

variable {γ : Type} (step : Tree → Shape (Tree × γ) (Tree × γ) → γ)

mutual

/-- Recursion over all of a tree, annotations included: `step` sees a node and its layer, with
each tree in it paired with the result for that tree. -/
def foldAll : Tree → γ
  | ⟨s, sp, ty⟩ => step ⟨s, sp, ty⟩ <| match s with
    | .ident n => .ident n
    | .typeIdent n => .typeIdent n
    | .literal v => .literal v
    | .select t n => .select (t, foldAll t) n
    | .apply t args => .apply (t, foldAll t) (foldTrees args)
    | .typeApply t args => .typeApply (t, foldAll t) (foldTrees args)
    | .appliedType t args => .appliedType (t, foldAll t) (foldTrees args)
    | .new t => .new (t, foldAll t)
    | .block stats r => .block (foldTrees stats) (r, foldAll r)
    | .matchOn t arms => .matchOn (t, foldAll t) (foldArms arms)
    | .bind n p => .bind n (p, foldAll p)
    | .wildcard => .wildcard
    | .lambda ps b => .lambda (foldValues ps) (b, foldAll b)
    | .valueDef d => .valueDef (foldValue d)
    | .methodDef ⟨m, n, tps, gs, r, b⟩ =>
      .methodDef ⟨foldMods m, n, tps, foldGroups gs, foldOption r, (b, foldAll b)⟩
    | .classDef ⟨m, n, tps, ps, b⟩ => .classDef ⟨foldMods m, n, tps, foldValues ps, foldTrees b⟩
    | .objectDef ⟨m, n, b⟩ => .objectDef ⟨foldMods m, n, foldTrees b⟩
    | .package n stats => .package n (foldTrees stats)
    | .quote t => .quote (t, foldAll t)
    | .splice t => .splice (t, foldAll t)
    | .tag i => .tag i

private def foldTrees : List Tree → List (Tree × γ)
  | [] => []
  | t :: l => (t, foldAll t) :: foldTrees l

private def foldOption : Option Tree → Option (Tree × γ)
  | none => none
  | some t => some (t, foldAll t)

private def foldMods : Modifiers Tree → Modifiers (Tree × γ)
  | ⟨fl, as⟩ => ⟨fl, foldTrees as⟩

private def foldValue : ValueDef Tree Tree → ValueDef (Tree × γ) (Tree × γ)
  | ⟨m, n, t, i, s⟩ => ⟨foldMods m, n, foldOption t, foldOption i, s⟩

private def foldValues : List (ValueDef Tree Tree) → List (ValueDef (Tree × γ) (Tree × γ))
  | [] => []
  | d :: l => foldValue d :: foldValues l

private def foldGroups :
    List (List (ValueDef Tree Tree)) → List (List (ValueDef (Tree × γ) (Tree × γ)))
  | [] => []
  | g :: l => foldValues g :: foldGroups l

private def foldArms : List (Arm Tree) → List (Arm (Tree × γ))
  | [] => []
  | ⟨p, g, b⟩ :: l => ⟨(p, foldAll p), foldOption g, (b, foldAll b)⟩ :: foldArms l

end

/-- A tree paired with its result. -/
private def foldPair (t : Tree) : Tree × γ := (t, foldAll step t)

/-- The recursion over a list is a map.  It is written out for the termination check, and this lemma
and its like bring the map back. -/
private theorem foldTrees_eq : ∀ l, foldTrees step l = l.map (foldPair step)
  | [] => by simp [foldTrees]
  | t :: l => by simp [foldTrees, foldTrees_eq l, foldPair]

private theorem foldOption_eq : ∀ o, foldOption step o = o.map (foldPair step)
  | none => by simp [foldOption]
  | some t => by simp [foldOption, foldPair]

private theorem foldMods_eq : ∀ m, foldMods step m = m.map (foldPair step)
  | ⟨fl, as⟩ => by simp [foldMods, Modifiers.map, foldTrees_eq]

/-- The recursion over a value definition fills its holes. -/
private theorem foldValue_eq : ∀ d, foldValue step d = d.bimap (foldPair step) (foldPair step)
  | ⟨m, n, t, i, s⟩ => by simp [foldValue, ValueDef.bimap, foldMods_eq, foldOption_eq]

private theorem foldValues_eq :
    ∀ l, foldValues step l = l.map (·.bimap (foldPair step) (foldPair step))
  | [] => by simp [foldValues]
  | d :: l => by simp [foldValues, foldValue_eq, foldValues_eq l]

private theorem foldGroups_eq :
    ∀ l, foldGroups step l = l.map (·.map (·.bimap (foldPair step) (foldPair step)))
  | [] => by simp [foldGroups]
  | g :: l => by simp [foldGroups, foldValues_eq, foldGroups_eq l]

private theorem foldArms_eq : ∀ l, foldArms step l = l.map (·.map (foldPair step))
  | [] => by simp [foldArms]
  | a :: l => by simp [foldArms, foldArms_eq l, Arm.map, foldOption_eq, foldPair]

/-- **The equation of the recursion**: every tree in the layer comes with its own result. -/
theorem foldAll_eq (t : Tree) :
    foldAll step t =
      step t (t.shape.bimap (fun a => (a, foldAll step a)) (fun c => (c, foldAll step c))) := by
  obtain ⟨s, sp, ty⟩ := t
  change _ = step _ (s.bimap (foldPair step) (foldPair step))
  cases s with
  | methodDef d | classDef d | objectDef d =>
    cases d
    simp [foldAll, Shape.bimap, MethodDef.bimap, ClassDef.bimap, ObjectDef.bimap, foldMods_eq,
      foldGroups_eq, foldOption_eq, foldValues_eq, foldTrees_eq, foldPair]
  | _ =>
    simp [foldAll, Shape.bimap, foldTrees_eq, foldArms_eq, foldValues_eq, foldValue_eq, foldPair]

end

/-- Recursion over the code of a tree: annotations are handed over as they stand, and each subtree
is paired with its result. -/
def fold {γ : Type} (step : Tree → Shape Tree (Tree × γ) → γ) : Tree → γ :=
  foldAll fun t s => step t (s.bimap Prod.fst id)

/-- **The equation of the recursion over the code.** -/
theorem fold_eq {γ : Type} (step : Tree → Shape Tree (Tree × γ) → γ) (t : Tree) :
    t.fold step = step t (t.shape.map fun c => (c, c.fold step)) := by
  rw [fold, foldAll_eq, Shape.bimap_bimap]
  rfl

/-! ## 3. Equality -/

/-- Are two trees the same, layer by layer? -/
def same : Tree → Tree → Bool :=
  foldAll fun t s u =>
    t.span == u.span && t.ty == u.ty && s.agree (fun a => a.2) (fun c => c.2) u.shape

/-- The equation of the comparison: layers are compared hole by hole, by the comparison itself. -/
theorem same_eq (t u : Tree) :
    t.same u = (t.span == u.span && t.ty == u.ty && t.shape.agree same same u.shape) := by
  rw [same, foldAll_eq]
  rw [Shape.agree_bimap]

/-- **The comparison of trees decides equality.** -/
theorem same_iff : ∀ t u : Tree, t.same u = true ↔ t = u := by
  intro t
  induction t using induction with
  | step t ha hc =>
    intro u
    obtain ⟨s, sp, ty⟩ := t
    obtain ⟨s', sp', ty'⟩ := u
    simp only [same_eq, Bool.and_eq_true, beq_iff_eq, Shape.agree_iff ha hc, mk.injEq]
    constructor
    · rintro ⟨⟨h, h'⟩, h''⟩
      exact ⟨h'', h, h'⟩
    · rintro ⟨h'', h, h'⟩
      exact ⟨⟨h, h'⟩, h''⟩

instance : DecidableEq Tree := fun t u => decidable_of_iff _ (same_iff t u)

end Tree

end Enrich
