import Enrich.Proofs.Filling
import Mathlib.Data.List.Basic
/-!
# Lexical scope

Which declaration does an identifier refer to?  A place in a tree is a path of child numbers from
the root.  On the way to it, each node adds the names it makes visible in the child that comes next,
and the innermost declaration of a name is the one meant (`Tree.resolve?`).

Parameters are visible in the whole of what they are parameters of, the names in a pattern in the
guard and the body of their arm, and members throughout the body they are members of.  Statements of
a block are visible to one another in one of two ways (`Visibility`): a statement sees those before
it, or it sees them all.  Nothing here depends on which.

A pass that replaces subtrees that declare nothing by others that declare nothing leaves the scope
of every place as it is (`Tree.at?_replace`).

* `Shape.visible_map`, `Tree.visible_map`: names that are not changed are visible where they were.
* `Tree.at?_replace`, `Tree.at?_bindTags_of_tag`: places and their scopes after a replacement.
-/

namespace Enrich

variable {α β γ : Type}

/-! ## 1. What is visible where -/

/-- What the statements of a block see of one another. -/
inductive Visibility where
  /-- The declarations before them. -/
  | later
  /-- All declarations of the block. -/
  | everywhere
deriving DecidableEq, Repr

/-- The names that the statement at position `k` sees. -/
def Visibility.seenAt (rule : Visibility) (declared : β → List Name) (stats : List β) (k : Nat) :
    List Name :=
  match rule with
  | .later => (stats.take k).flatMap declared
  | .everywhere => stats.flatMap declared

/-- The children of arms, each with the names of its pattern; `start` names come before these. -/
def visibleInArms (patternNames : β → List Name) (start : Nat) :
    List (Arm β) → List (List (Name × Nat) × β)
  | [] => []
  | a :: as =>
    let names := (patternNames a.pat).zipIdx start
    ([], a.pat) :: (a.guard.toList ++ [a.body]).map (names, ·) ++
      visibleInArms patternNames (start + names.length) as

/-- The children of a layer, each with the names that the layer makes visible in it, numbered from
first to last.  `declared` tells what a statement declares, `patternNames` what a pattern does. -/
def Shape.visible (rule : Visibility) (declared patternNames : β → List Name) :
    Shape α β → List (List (Name × Nat) × β)
  | .block stats r =>
    stats.zipIdx.map (fun c => ((rule.seenAt declared stats c.2).zipIdx, c.1)) ++
      [((stats.flatMap declared).zipIdx, r)]
  | .matchOn t arms => ([], t) :: visibleInArms patternNames 0 arms
  | .lambda ps b =>
    (ps.flatMap ValueDef.children ++ [b]).map ((ps.map ValueDef.name).zipIdx, ·)
  | .methodDef d => d.children.map ((d.name :: d.params.map ValueDef.name).zipIdx, ·)
  | .classDef d =>
    let params := d.params.map ValueDef.name
    (d.params.flatMap ValueDef.children).map (params.zipIdx, ·) ++
      d.body.map ((params ++ d.body.flatMap declared).zipIdx, ·)
  | .objectDef d => d.body.map ((d.name :: d.body.flatMap declared).zipIdx, ·)
  | .package _ stats => stats.map ((stats.flatMap declared).zipIdx, ·)
  | s => s.children.map ([], ·)

theorem visibleInArms_map (patternNames : γ → List Name) (f : β → γ) (start : Nat)
    (arms : List (Arm β)) :
    visibleInArms patternNames start (arms.map (·.map f)) =
      (visibleInArms (patternNames ∘ f) start arms).map (Prod.map id f) := by
  induction arms generalizing start with
  | nil => rfl
  | cons a as ih =>
    rw [List.map_cons, visibleInArms, visibleInArms, ih]
    cases hg : a.guard <;> simp [Arm.map, hg]

theorem Visibility.seenAt_map (rule : Visibility) (declared : γ → List Name) (f : β → γ)
    (stats : List β) (k : Nat) :
    rule.seenAt declared (stats.map f) k = rule.seenAt (declared ∘ f) stats k := by
  cases rule <;> simp [seenAt, ← List.map_take, List.flatMap_map, Function.comp_def]

theorem ValueDef.map_name_bimap (f : β → γ) (ps : List (ValueDef α β)) :
    (ps.map (·.bimap id f)).map name = ps.map name := List.map_map

/-- **Names that are not changed are visible where they were.** -/
theorem Shape.visible_map (rule : Visibility) (declared patternNames : γ → List Name) (f : β → γ)
    (s : Shape α β) :
    (s.map f).visible rule declared patternNames =
      (s.visible rule (declared ∘ f) (patternNames ∘ f)).map (Prod.map id f) := by
  cases s with
  | block stats r =>
    simp [map, bimap, visible, Visibility.seenAt_map, List.zipIdx_map, List.flatMap_map, Function.comp_def]
  | matchOn t arms =>
    simp only [map, bimap, visible, visibleInArms_map]
    rfl
  | lambda ps b =>
    simp only [map, bimap, visible, ValueDef.map_name_bimap, ValueDef.flatMap_children_bimap]
    simp [Function.comp_def]
  | methodDef d =>
    simp only [map, bimap, visible, MethodDef.children_bimap, MethodDef.params_bimap,
      ValueDef.map_name_bimap]
    simp [MethodDef.bimap, Function.comp_def]
  | classDef d =>
    simp only [map, bimap, visible, ClassDef.bimap, ValueDef.map_name_bimap,
      ValueDef.flatMap_children_bimap]
    simp [List.flatMap_map, Function.comp_def]
  | objectDef d =>
    simp [map, bimap, visible, ObjectDef.bimap, List.flatMap_map, Function.comp_def]
  | package n stats => simp [map, bimap, visible, List.flatMap_map, Function.comp_def]
  | valueDef d => simp [map, bimap, visible, children, ValueDef.children_bimap, Function.comp_def]
  | _ => simp [map, bimap, visible, children, Function.comp_def]

/-- The places with nothing visible in them are those in the layer. -/
theorem Shape.map_snd_visible (rule : Visibility) (declared patternNames : β → List Name)
    (s : Shape α β) : (s.visible rule declared patternNames).map Prod.snd = s.children := by
  have harms : ∀ (arms : List (Arm β)) start,
      (visibleInArms patternNames start arms).map Prod.snd = arms.flatMap Arm.children := by
    intro arms
    induction arms with
    | nil => intro start; rfl
    | cons a as ih => intro start; simp [visibleInArms, Arm.children, ih, Function.comp_def]
  cases s <;>
    simp [visible, children, harms, MethodDef.children, ClassDef.children, Function.comp_def]

namespace Tree

/-- The names that a statement or a member declares to what stands beside it. -/
def declared (t : Tree) : List Name :=
  match t.shape with
  | .valueDef d => [d.name]
  | .methodDef d => [d.name]
  | .objectDef d => [d.name]
  | _ => []

/-- The name that a pattern node declares. -/
def patternName? (t : Tree) : Option Name :=
  match t.shape with
  | .bind n _ => some n
  | _ => none

/-- The names that a pattern declares, in reading order. -/
def patternNames : Tree → List Name :=
  fold fun t s => t.patternName?.toList ++ s.children.flatMap Prod.snd

theorem patternNames_eq (t : Tree) :
    t.patternNames = t.patternName?.toList ++ t.shape.children.flatMap patternNames := by
  rw [patternNames, fold_eq]
  simp only [Shape.map, Shape.children_bimap, List.flatMap_map]

/-- The children of a tree, each with the names that its root makes visible there. -/
def visible (rule : Visibility) (t : Tree) : List (List (Name × Nat) × Tree) :=
  t.shape.visible rule declared patternNames

end Tree

/-! ## 2. Places -/

/-- A declaration: the node that makes it visible, and its number there. -/
structure Declaration where
  path : List Nat
  index : Nat
deriving DecidableEq, Repr

/-- The declaration, seen from further out. -/
def Declaration.under (route : List Nat) (d : Declaration) : Declaration :=
  { d with path := route ++ d.path }

/-- What is visible in a place, the innermost declarations first. -/
abbrev NameScope := List (Name × Declaration)

namespace NameScope

/-- The scope that a node adds; of two declarations of a name the later one is meant. -/
def ofNames (names : List (Name × Nat)) : NameScope :=
  names.reverse.map fun n => (n.1, { path := [], index := n.2 })

/-- The scope, seen from further out. -/
def under (route : List Nat) (scope : NameScope) : NameScope :=
  scope.map fun n => (n.1, n.2.under route)

end NameScope

namespace Tree

/-- The subtree at a path, and its scope. -/
def at? (rule : Visibility) : List Nat → Tree → Option (NameScope × Tree)
  | [], t => some ([], t)
  | k :: path, t => do
    let (names, c) ← (t.visible rule)[k]?
    let (scope, u) ← c.at? rule path
    return (scope.under [k] ++ .ofNames names, u)

@[simp] theorem at?_nil (rule : Visibility) (t : Tree) : t.at? rule [] = some ([], t) := rfl

theorem at?_cons_eq_some_iff {rule : Visibility} {k : Nat} {path : List Nat} {t u : Tree}
    {scope : NameScope} :
    t.at? rule (k :: path) = some (scope, u) ↔ ∃ names c inner,
      (t.visible rule)[k]? = some (names, c) ∧ c.at? rule path = some (inner, u) ∧
        scope = inner.under [k] ++ .ofNames names := by
  rw [at?]
  constructor
  · intro h
    obtain ⟨⟨names, c⟩, hk, h⟩ := Option.bind_eq_some_iff.mp h
    obtain ⟨⟨inner, u'⟩, hc, h⟩ := Option.bind_eq_some_iff.mp h
    cases h
    exact ⟨names, c, inner, hk, hc, rfl⟩
  · rintro ⟨names, c, inner, hk, hc, rfl⟩
    simp only [hk, hc, Option.bind_eq_bind, Option.bind_some]
    rfl

/-- The identifier at a path, and the declaration that it refers to; none if it is free. -/
def resolve? (rule : Visibility) (path : List Nat) (t : Tree) :
    Option (Name × Option Declaration) := do
  let (scope, u) ← t.at? rule path
  let n ← u.reference?
  return (n, scope.lookup n)

theorem resolve?_eq_some_iff {rule : Visibility} {path : List Nat} {t : Tree} {n : Name}
    {d : Option Declaration} :
    t.resolve? rule path = some (n, d) ↔ ∃ scope u,
      t.at? rule path = some (scope, u) ∧ u.reference? = some n ∧ d = scope.lookup n := by
  rw [resolve?]
  constructor
  · intro h
    obtain ⟨⟨scope, u⟩, hat, h⟩ := Option.bind_eq_some_iff.mp h
    obtain ⟨n', hn, h⟩ := Option.bind_eq_some_iff.mp h
    cases h
    exact ⟨scope, u, hat, hn, rfl⟩
  · rintro ⟨scope, u, hat, hn, rfl⟩
    simp only [hat, hn, Option.bind_eq_bind, Option.bind_some]
    rfl

end Tree

/-! ## 3. Places after a replacement -/

namespace Tree

/-- What `g` answers declares what the subtree in its place does. -/
structure IsNeutral (g : Tree → Option Tree) : Prop where
  declared : ∀ t u, g t = some u → u.declared = t.declared
  patternNames : ∀ t u, g t = some u → u.patternNames = t.patternNames

section

variable {g : Tree → Option Tree} {rule : Visibility}

theorem declared_replace (hg : IsNeutral g) (t : Tree) : (t.replace g).declared = t.declared := by
  cases h : g t with
  | some u => rw [replace_of_some h, hg.declared t u h]
  | none =>
    rw [replace_of_none h]
    unfold declared
    cases t.shape <;> rfl

theorem patternNames_replace (hg : IsNeutral g) (t : Tree) :
    (t.replace g).patternNames = t.patternNames := by
  induction t using induction with
  | step t _ ih =>
    cases h : g t with
    | some u => rw [replace_of_some h, hg.patternNames t u h]
    | none =>
      have hroot : patternName? ⟨t.shape.map (replace g), t.span, t.ty⟩ = t.patternName? := by
        unfold patternName?
        cases t.shape <;> rfl
      rw [replace_of_none h, patternNames_eq, patternNames_eq, hroot]
      simp only [Shape.map, Shape.children_bimap, List.flatMap_map]
      congr 1
      exact List.flatMap_congr ih

/-- Where nothing is put at the root, the names that the root makes visible stay. -/
theorem visible_replace (hg : IsNeutral g) {t : Tree} (h : g t = none) :
    (t.replace g).visible rule = (t.visible rule).map (Prod.map id (replace g)) := by
  have hdeclared : declared ∘ replace g = declared := funext (declared_replace hg)
  have hpattern : patternNames ∘ replace g = patternNames := funext (patternNames_replace hg)
  rw [replace_of_none h, visible, Shape.visible_map, hdeclared, hpattern]
  rfl

/-- **What is not inside a replaced subtree stays in its place**, with its scope. -/
theorem at?_replace (hg : IsNeutral g) {u : Tree}
    (hout : ∀ v w path scope, g v = some w → v.at? rule path = some (scope, u) → path = []) :
    ∀ {path : List Nat} {t : Tree} {scope : NameScope}, t.at? rule path = some (scope, u) →
      (t.replace g).at? rule path = some (scope, u.replace g)
  | [], t, scope, h => by
    rw [at?_nil, Option.some.injEq, Prod.mk.injEq] at h
    obtain ⟨rfl, rfl⟩ := h
    rfl
  | k :: path, t, scope, h => by
    have hroot : g t = none := by
      cases hgt : g t with
      | none => rfl
      | some w => exact absurd (hout t w (k :: path) scope hgt h) (List.cons_ne_nil k path)
    obtain ⟨names, c, inner, hk, hc, rfl⟩ := at?_cons_eq_some_iff.mp h
    refine at?_cons_eq_some_iff.mpr ⟨names, c.replace g, inner, ?_, at?_replace hg hout hc, rfl⟩
    rw [visible_replace hg hroot, List.getElem?_map, hk]
    rfl

end

/-! ## 4. Tags -/

theorem reference?_eq_some_iff {t : Tree} {n : Name} :
    t.reference? = some n ↔ t.shape = .ident n := by
  unfold reference?
  cases t.shape <;> simp

/-- A reference is left as it is where nothing is put in its place. -/
theorem replace_of_reference {g : Tree → Option Tree} {t : Tree} {n : Name}
    (h : t.reference? = some n) (hg : g t = none) : t.replace g = t := by
  have hs := reference?_eq_some_iff.mp h
  calc t.replace g = ⟨.ident n, t.span, t.ty⟩ := by
        rw [replace_of_none hg, hs]
        rfl
    _ = t := by rw [← hs, eta]

theorem retag_of_reference {positions : List Nat} {t : Tree} {n : Name}
    (h : t.reference? = some n) : t.retag positions = t := by
  refine replace_of_reference h ?_
  rw [renumbered?, reference?_eq_some_iff.mp h]

theorem tagged?_eq_none_of_reference {t : Tree} {n : Name} (h : t.reference? = some n) :
    t.tagged? = none := by
  rw [tagged?_eq_none_iff, reference?_eq_some_iff.mp h]
  exact ⟨fun i hi => by contradiction, fun inner hi => by contradiction⟩

/-- Tagged places declare nothing. -/
theorem declared_of_tagged {t : Tree} {i : Nat} (h : t.tagged? = some i) :
    t.declared = [] ∧ t.patternNames = [] := by
  rcases tagged?_eq_some_iff.mp h with hs | ⟨inner, hs, hs'⟩
  · simp [declared, patternNames_eq t, patternName?, hs, Shape.children]
  · simp [declared, patternNames_eq t, patternNames_eq inner, patternName?, hs, hs',
      Shape.children]

theorem isNeutral_renumbered (positions : List Nat) : IsNeutral (renumbered? positions) := by
  have htag : ∀ {t u : Tree}, t.renumbered? positions = some u →
      (∃ i, t.tagged? = some i) ∧ ∃ k, u.tagged? = some k := by
    intro t u h
    obtain ⟨i, k, hs, -, rfl⟩ := renumbered?_eq_some h
    exact ⟨⟨i, tagged?_eq_some_iff.mpr (.inl hs)⟩, k, rfl⟩
  constructor
  · intro t u h
    obtain ⟨⟨i, ht⟩, k, hu⟩ := htag h
    rw [(declared_of_tagged ht).1, (declared_of_tagged hu).1]
  · intro t u h
    obtain ⟨⟨i, ht⟩, k, hu⟩ := htag h
    rw [(declared_of_tagged ht).2, (declared_of_tagged hu).2]

/-- What is bound is a tagged place. -/
theorem bound?_eq_some {names : List Name} {t u : Tree} (h : t.bound? names = some u) :
    ∃ i n sp, t.tagged? = some i ∧ names[i]? = some n ∧ u = ident n sp := by
  have hbound : ∀ {t : Tree}, t.boundTag? names = some u →
      ∃ i n, t.shape = .tag i ∧ names[i]? = some n ∧ u = ident n t.span := by
    intro t h
    unfold boundTag? at h
    split at h
    · rename_i i hi
      obtain ⟨n, hn, rfl⟩ := Option.map_eq_some_iff.mp h
      exact ⟨i, n, hi, hn, rfl⟩
    · contradiction
  unfold bound? at h
  split at h
  · rename_i inner hs
    obtain ⟨i, n, hi, hn, rfl⟩ := hbound h
    exact ⟨i, n, inner.span, tagged?_eq_some_iff.mpr (.inr ⟨inner, hs, hi⟩), hn, rfl⟩
  · obtain ⟨i, n, hi, hn, rfl⟩ := hbound h
    exact ⟨i, n, t.span, tagged?_eq_some_iff.mpr (.inl hi), hn, rfl⟩

theorem bound?_of_untagged {names : List Name} {t : Tree} (h : t.tagged? = none) :
    t.bound? names = none := by
  cases hb : t.bound? names with
  | none => rfl
  | some u =>
    obtain ⟨i, -, -, ht, -, -⟩ := bound?_eq_some hb
    rw [h] at ht
    contradiction

theorem isNeutral_bound (names : List Name) : IsNeutral (bound? names) := by
  constructor
  · intro t u h
    obtain ⟨i, n, sp, ht, -, rfl⟩ := bound?_eq_some h
    rw [(declared_of_tagged ht).1]
    rfl
  · intro t u h
    obtain ⟨i, n, sp, ht, -, rfl⟩ := bound?_eq_some h
    rw [(declared_of_tagged ht).2, patternNames_eq]
    rfl

section

variable {rule : Visibility} {t u : Tree} {i : Nat} {path : List Nat} {scope : NameScope}

/-- There is nothing inside a tag. -/
theorem at?_of_tag (ht : t.shape = .tag i) (h : t.at? rule path = some (scope, u)) :
    path = [] ∧ scope = [] ∧ u = t := by
  cases path with
  | nil =>
    rw [at?_nil, Option.some.injEq, Prod.mk.injEq] at h
    exact ⟨rfl, h.1.symm, h.2.symm⟩
  | cons k path =>
    obtain ⟨names, c, inner, hk, -, -⟩ := at?_cons_eq_some_iff.mp h
    simp [visible, ht, Shape.visible, Shape.children] at hk

/-- What stands at a path is code of the tree, so its tags are tags of the tree. -/
theorem mem_tags_of_at? : ∀ {path : List Nat} {t : Tree} {scope : NameScope},
    t.at? rule path = some (scope, u) → i ∈ u.tags → i ∈ t.tags
  | [], t, scope, h, hi => by
    rw [at?_nil, Option.some.injEq, Prod.mk.injEq] at h
    exact h.2 ▸ hi
  | k :: path, t, scope, h, hi => by
    obtain ⟨names, c, inner, hk, hc, rfl⟩ := at?_cons_eq_some_iff.mp h
    have hchild : c ∈ t.shape.children := by
      rw [← Shape.map_snd_visible rule declared patternNames t.shape]
      exact List.mem_map_of_mem (List.mem_of_getElem? hk)
    rw [tags_eq]
    split
    · rename_i j hs
      rw [hs] at hchild
      exact absurd hchild List.not_mem_nil
    · exact List.mem_flatMap.mpr ⟨c, hchild, mem_tags_of_at? hc hi⟩

/-- Inside a tagged place there is only the tag. -/
theorem at?_of_tagged (ht : t.tagged? = some i) (h : t.at? rule path = some (scope, u)) :
    scope = [] ∧ (path = [] ∧ u = t ∨ path = [0] ∧ u.shape = .tag i) := by
  rcases tagged?_eq_some_iff.mp ht with hs | ⟨inner, hs, hs'⟩
  · obtain ⟨hpath, hscope, hu⟩ := at?_of_tag hs h
    exact ⟨hscope, .inl ⟨hpath, hu⟩⟩
  · cases path with
    | nil =>
      rw [at?_nil, Option.some.injEq, Prod.mk.injEq] at h
      exact ⟨h.1.symm, .inl ⟨rfl, h.2.symm⟩⟩
    | cons k path =>
      obtain ⟨names, c, below, hk, hc, rfl⟩ := at?_cons_eq_some_iff.mp h
      have hvisible : t.visible rule = [([], inner)] := by
        rw [visible, hs]
        rfl
      rw [hvisible, List.getElem?_singleton] at hk
      split at hk
      · rename_i hzero
        cases hk
        obtain ⟨rfl, rfl, rfl⟩ := at?_of_tag hs' hc
        exact ⟨rfl, .inr ⟨by rw [hzero], hs'⟩⟩
      · contradiction

/-- Renumbering keeps places and scopes. -/
theorem at?_retag (positions : List Nat) (h : t.at? rule path = some (scope, u)) :
    (t.retag positions).at? rule path = some (scope, u.retag positions) := by
  refine at?_replace (isNeutral_renumbered positions) (fun v w path scope hv hat => ?_) h
  obtain ⟨i, k, hs, -, -⟩ := renumbered?_eq_some hv
  exact (at?_of_tag hs hat).1

/-- Binding keeps the places and the scopes of references. -/
theorem at?_bindTags_of_reference (names : List Name) {n : Name} (hu : u.reference? = some n)
    (h : t.at? rule path = some (scope, u)) :
    (t.bindTags names).at? rule path = some (scope, u) := by
  have hnone : u.bound? names = none := bound?_of_untagged (tagged?_eq_none_of_reference hu)
  have hout : ∀ (v w : Tree) path scope, v.bound? names = some w →
      v.at? rule path = some (scope, u) → path = [] := by
    intro v w path scope hv hat
    obtain ⟨i, -, -, ht, -, -⟩ := bound?_eq_some hv
    rcases (at?_of_tagged ht hat).2 with ⟨hpath, -⟩ | ⟨-, hs⟩
    · exact hpath
    · rw [reference?_eq_some_iff.mp hu] at hs
      contradiction
  have hreplaced := at?_replace (isNeutral_bound names) hout h
  rwa [replace_of_reference hu hnone] at hreplaced

/-- **Binding puts a reference in the place of a tag**, or, if the tag is spliced, in the place of
the splice, and the scope is that of the tag. -/
theorem at?_bindTags_of_tag {names : List Name} {n : Name} (hn : names[i]? = some n)
    (hu : u.shape = .tag i) : ∀ {path : List Nat} {t : Tree} {scope : NameScope},
    t.at? rule path = some (scope, u) → ∃ path' sp, (path' = path ∨ path' ++ [0] = path) ∧
      (t.bindTags names).at? rule path' = some (scope, ident n sp)
  | [], t, scope, h => by
    rw [at?_nil, Option.some.injEq, Prod.mk.injEq] at h
    obtain ⟨rfl, rfl⟩ := h
    obtain ⟨sp, hsp⟩ := bindTags_of_tagged (tagged?_eq_some_iff.mpr (.inl hu)) hn
    exact ⟨[], sp, .inl rfl, by rw [hsp]; rfl⟩
  | k :: path, t, scope, h => by
    cases ht : t.tagged? with
    | some j =>
      -- the splice of the tag: the reference stands for both
      obtain ⟨rfl, ⟨hpath, -⟩ | ⟨hpath, hs⟩⟩ := at?_of_tagged ht h
      · exact absurd hpath (List.cons_ne_nil k path)
      · rw [hu, Shape.tag.injEq] at hs
        obtain ⟨sp, hsp⟩ := bindTags_of_tagged ht (hs ▸ hn)
        exact ⟨[], sp, .inr hpath.symm, by rw [hsp]; rfl⟩
    | none =>
      obtain ⟨visible, c, inner, hk, hc, rfl⟩ := at?_cons_eq_some_iff.mp h
      obtain ⟨path', sp, hpath, hat⟩ := at?_bindTags_of_tag hn hu hc
      refine ⟨k :: path', sp, ?_, ?_⟩
      · rcases hpath with rfl | rfl
        · exact .inl rfl
        · exact .inr rfl
      · refine at?_cons_eq_some_iff.mpr ⟨visible, c.bindTags names, inner, ?_, hat, rfl⟩
        rw [bindTags, visible_replace (isNeutral_bound names) (bound?_of_untagged ht),
          List.getElem?_map, hk]
        rfl

end

end Tree

end Enrich
