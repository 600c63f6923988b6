import Enrich.Tree.Build
/-!
# The names in a tree

A name stands in a tree where it is referred to, where it is declared, as the text of a string
constant, or as an attached type.  `Tree.names` lists them all, those inside annotations included,
and `Tree.rename` puts other names in their place and leaves everything else.

* `Tree.names_rename`: renaming renames the list.
* `Tree.rename_congr`: a renaming counts only on the names that are there.
* `Tree.rename_eq_self_iff`: what is left as it is has no name that is changed.
-/

namespace Enrich

variable {α β γ δ : Type}

/-! ## 1. One layer -/

def Literal.names : Literal → List Name
  | .str n => [n]
  | _ => []

def Literal.rename (f : Name → Name) : Literal → Literal
  | .str n => .str (f n)
  | v => v

def TypeParam.rename (f : Name → Name) (p : TypeParam) : TypeParam := { p with name := f p.name }

namespace ValueDef

/-- Renames a value definition and leaves what is in its holes. -/
def rename (f : Name → Name) (d : ValueDef α β) : ValueDef α β := { d with name := f d.name }

end ValueDef

namespace MethodDef

/-- The names that a method declares: its own, its type parameters, its parameters. -/
def names (d : MethodDef α β) : List Name :=
  d.name :: (d.tparams.map TypeParam.name ++ d.params.map ValueDef.name)

/-- Renames a method and its parameters and leaves what is in its holes. -/
def rename (f : Name → Name) (d : MethodDef α β) : MethodDef α β :=
  { d with name := f d.name, tparams := d.tparams.map (.rename f)
           groups := d.groups.map (·.map (.rename f)) }

theorem params_rename (f : Name → Name) (d : MethodDef α β) :
    (d.rename f).params = d.params.map (.rename f) := List.map_flatten.symm

end MethodDef

namespace ClassDef

/-- The names that a class declares: its own, its type parameters, its parameters. -/
def names (d : ClassDef α β) : List Name :=
  d.name :: (d.tparams.map TypeParam.name ++ d.params.map ValueDef.name)

/-- Renames a class and its parameters and leaves what is in its holes. -/
def rename (f : Name → Name) (d : ClassDef α β) : ClassDef α β :=
  { d with name := f d.name, tparams := d.tparams.map (.rename f)
           params := d.params.map (.rename f) }

end ClassDef

namespace Shape

/-- The names that stand in a layer itself. -/
def names : Shape α β → List Name
  | .ident n | .typeIdent n | .select _ n | .bind n _ | .package n _ => [n]
  | .literal v => v.names
  | .lambda ps _ => ps.map ValueDef.name
  | .valueDef d => [d.name]
  | .methodDef d => d.names
  | .classDef d => d.names
  | .objectDef d => [d.name]
  | _ => []

/-- Renames a layer and leaves what is in its holes. -/
def rename (f : Name → Name) : Shape α β → Shape α β
  | .ident n => .ident (f n)
  | .typeIdent n => .typeIdent (f n)
  | .literal v => .literal (v.rename f)
  | .select t n => .select t (f n)
  | .bind n p => .bind (f n) p
  | .lambda ps b => .lambda (ps.map (.rename f)) b
  | .valueDef d => .valueDef (d.rename f)
  | .methodDef d => .methodDef (d.rename f)
  | .classDef d => .classDef (d.rename f)
  | .objectDef d => .objectDef { d with name := f d.name }
  | .package n stats => .package (f n) stats
  | s => s

section

variable (f : Name → Name) (g : α → γ) (h : β → δ)

/-- The names a layer holds itself do not depend on what stands in its holes. -/
theorem names_bimap (s : Shape α β) : (s.bimap g h).names = s.names := by
  have hparams : ∀ ps : List (ValueDef α β),
      (ps.map (·.bimap g h)).map ValueDef.name = ps.map ValueDef.name := fun ps => by
    rw [List.map_map]
    rfl
  cases s with
  | methodDef d =>
    simp only [bimap, names, MethodDef.names, MethodDef.params_bimap, hparams]
    rfl
  | classDef d =>
    simp only [bimap, names, ClassDef.names, ClassDef.bimap, hparams]
  | lambda ps b => exact hparams ps
  | _ => rfl

theorem rename_bimap (s : Shape α β) : (s.bimap g h).rename f = (s.rename f).bimap g h := by
  have hparams : ∀ ps : List (ValueDef α β),
      (ps.map fun p => p.bimap g h).map (ValueDef.rename f) =
        (ps.map (ValueDef.rename f)).map fun p => p.bimap g h := fun ps => by
    rw [List.map_map, List.map_map]
    rfl
  cases s with
  | methodDef d =>
    simp only [bimap, rename, MethodDef.rename, MethodDef.bimap, List.map_map, Function.comp_def]
    rfl
  | classDef d => simp only [bimap, rename, ClassDef.rename, ClassDef.bimap, hparams]
  | lambda ps b => simp only [bimap, rename, hparams]
  | _ => rfl

/-- A renamed layer holds the renamed names, in order. -/
theorem names_rename (s : Shape α β) : (s.rename f).names = s.names.map f := by
  have hparams : ∀ ps : List (ValueDef α β),
      (ps.map (.rename f)).map ValueDef.name = (ps.map ValueDef.name).map f := fun ps => by
    rw [List.map_map, List.map_map]
    rfl
  have htparams : ∀ tps : List TypeParam,
      (tps.map (.rename f)).map TypeParam.name = (tps.map TypeParam.name).map f := fun tps => by
    rw [List.map_map, List.map_map]
    rfl
  cases s with
  | literal v => cases v <;> rfl
  | methodDef d =>
    simp only [rename, names, MethodDef.names, MethodDef.params_rename, hparams, List.map_cons,
      List.map_append]
    rw [← htparams]
    rfl
  | classDef d =>
    simp only [rename, names, ClassDef.names, ClassDef.rename, hparams, htparams, List.map_cons,
      List.map_append]
  | lambda ps b => exact hparams ps
  | _ => rfl

theorem children_rename (s : Shape α β) : (s.rename f).children = s.children := by
  have hparams : ∀ ps : List (ValueDef α β),
      (ps.map (.rename f)).flatMap ValueDef.children = ps.flatMap ValueDef.children := fun ps => by
    rw [List.flatMap_map]
    rfl
  cases s with
  | methodDef d =>
    simp only [rename, children, MethodDef.children, MethodDef.params_rename, hparams]
    rfl
  | classDef d => simp only [rename, children, ClassDef.children, ClassDef.rename, hparams]
  | lambda ps b => simp only [rename, children, hparams]
  | _ => rfl

theorem annotations_rename (s : Shape α β) : (s.rename f).annotations = s.annotations := by
  have hparams : ∀ ps : List (ValueDef α β),
      (ps.map (ValueDef.rename f)).flatMap (fun p => p.mods.annotations) =
        ps.flatMap fun p => p.mods.annotations := fun ps => by
    rw [List.flatMap_map]
    rfl
  cases s with
  | methodDef d =>
    simp only [rename, annotations, MethodDef.params_rename, hparams]
    rfl
  | classDef d => simp only [rename, annotations, ClassDef.rename, hparams]
  | lambda ps b => simp only [rename, annotations, hparams]
  | _ => rfl

end

theorem annotations_bimap (g : α → γ) (h : β → δ) (s : Shape α β) :
    (s.bimap g h).annotations = s.annotations.map g := by
  have hparams : ∀ ps : List (ValueDef α β),
      (ps.map (·.bimap g h)).flatMap (·.mods.annotations) =
        (ps.flatMap (·.mods.annotations)).map g := fun ps => by
    rw [List.flatMap_map, List.map_flatMap]
    rfl
  cases s with
  | methodDef d =>
    simp only [bimap, annotations, MethodDef.params_bimap, hparams, List.map_append]
    rfl
  | classDef d =>
    simp only [bimap, annotations, ClassDef.bimap, hparams, List.map_append]
    rfl
  | lambda ps b => exact hparams ps
  | _ => rfl

/-- A renaming counts only on the names that are there. -/
theorem rename_congr {f f' : Name → Name} {s : Shape α β} (h : ∀ n ∈ s.names, f n = f' n) :
    s.rename f = s.rename f' := by
  have hparams : ∀ ps : List (ValueDef α β), (∀ n ∈ ps.map ValueDef.name, f n = f' n) →
      ps.map (ValueDef.rename f) = ps.map (ValueDef.rename f') := fun ps hps =>
    List.map_congr_left fun d hd => by
      simp only [ValueDef.rename, hps d.name (List.mem_map_of_mem hd)]
  have htparams : ∀ tps : List TypeParam, (∀ n ∈ tps.map TypeParam.name, f n = f' n) →
      tps.map (TypeParam.rename f) = tps.map (TypeParam.rename f') := fun tps htps =>
    List.map_congr_left fun p hp => by
      simp only [TypeParam.rename, htps p.name (List.mem_map_of_mem hp)]
  cases s with
  | literal v =>
    cases v with
    | str n => exact congrArg (fun n => Shape.literal (.str n)) (h n (List.mem_singleton_self n))
    | _ => rfl
  | methodDef d =>
    simp only [names, MethodDef.names, List.forall_mem_cons, List.forall_mem_append] at h
    have hgroups : d.groups.map (List.map (ValueDef.rename f)) =
        d.groups.map (List.map (ValueDef.rename f')) :=
      List.map_congr_left fun ps hps => hparams ps fun n hn => by
        obtain ⟨p, hp, rfl⟩ := List.mem_map.mp hn
        exact h.2.2 _ (List.mem_map_of_mem (List.mem_flatten.mpr ⟨ps, hps, hp⟩))
    simp only [rename, MethodDef.rename, h.1, htparams _ h.2.1, hgroups]
  | classDef d =>
    simp only [names, ClassDef.names, List.forall_mem_cons, List.forall_mem_append] at h
    simp only [rename, ClassDef.rename, h.1, htparams _ h.2.1, hparams _ h.2.2]
  | lambda ps b => simp only [rename, hparams ps h]
  | ident n | typeIdent n | select _ n | bind n _ | package n _ =>
    simp only [rename, h n (List.mem_singleton_self n)]
  | valueDef d => simp only [rename, ValueDef.rename, h d.name (List.mem_singleton_self _)]
  | objectDef d => simp only [rename, h d.name (List.mem_singleton_self _)]
  | _ => rfl

theorem rename_id (s : Shape α β) : s.rename id = s := by
  have hparams : ∀ ps : List (ValueDef α β), ps.map (.rename id) = ps := fun ps => ps.map_id
  have htparams : ∀ tps : List TypeParam, tps.map (.rename id) = tps := fun tps => tps.map_id
  cases s with
  | literal v => cases v <;> rfl
  | methodDef d => simp [rename, MethodDef.rename, hparams, htparams]
  | classDef d => simp [rename, ClassDef.rename, hparams, htparams]
  | lambda ps b => simp [rename, hparams]
  | _ => rfl

end Shape

/-! ## 2. All layers -/

namespace Tree

/-- The names in a tree. -/
def names : Tree → List Name :=
  foldAll fun t s => t.ty.toList ++ (s.names ++
    (s.annotations.flatMap Prod.snd ++ s.children.flatMap Prod.snd))

/-- The names in a tree: of its type, of its layer, of its annotations, of its code. -/
theorem names_eq (t : Tree) :
    t.names = t.ty.toList ++ (t.shape.names ++
      (t.shape.annotations.flatMap names ++ t.shape.children.flatMap names)) := by
  rw [names, foldAll_eq, Shape.names_bimap, Shape.annotations_bimap, Shape.children_bimap,
    List.flatMap_map, List.flatMap_map]

/-- Puts `f n` in place of every name `n`. -/
def rename (f : Name → Name) : Tree → Tree :=
  foldAll fun t s => ⟨(s.bimap Prod.snd Prod.snd).rename f, t.span, t.ty.map f⟩

/-- The equation of renaming. -/
theorem rename_eq (f : Name → Name) (t : Tree) :
    t.rename f = ⟨(t.shape.bimap (rename f) (rename f)).rename f, t.span, t.ty.map f⟩ := by
  rw [rename, foldAll_eq, Shape.bimap_bimap]
  rfl

/-- A name in a tree is one of its root or is in a tree below the root. -/
theorem mem_names_iff {t : Tree} {n : Name} :
    n ∈ t.names ↔ n ∈ t.ty.toList ∨ n ∈ t.shape.names ∨ (∃ a ∈ t.shape.annotations, n ∈ a.names) ∨
      ∃ c ∈ t.shape.children, n ∈ c.names := by
  rw [names_eq]
  simp only [List.mem_append, List.mem_flatMap]

/-- **Renaming renames the list of names.** -/
theorem names_rename (f : Name → Name) (t : Tree) : (t.rename f).names = t.names.map f := by
  induction t using induction with
  | step t ha hc =>
    rw [rename_eq, names_eq]
    simp only [Shape.names_rename, Shape.names_bimap, Shape.annotations_rename,
      Shape.annotations_bimap, Shape.children_rename, Shape.children_bimap, List.flatMap_map]
    rw [names_eq t, List.map_append, List.map_append, List.map_append, List.map_flatMap,
      List.map_flatMap]
    congr 1
    · cases t.ty <;> rfl
    · simp only [List.flatMap_def, List.map_congr_left ha, List.map_congr_left hc]

/-- **A renaming counts only on the names that are there.** -/
theorem rename_congr {f f' : Name → Name} {t : Tree} (h : ∀ n ∈ t.names, f n = f' n) :
    t.rename f = t.rename f' := by
  induction t using induction with
  | step t ha hc =>
    have hty : t.ty.map f = t.ty.map f' := Option.map_congr fun n hn =>
      h n (mem_names_iff.mpr (.inl (by simp [hn])))
    have hshape : t.shape.bimap (rename f) (rename f) = t.shape.bimap (rename f') (rename f') :=
      Shape.bimap_congr
        (fun a hm => ha a hm fun n hn => h n (mem_names_iff.mpr (.inr (.inr (.inl ⟨a, hm, hn⟩)))))
        fun c hm => hc c hm fun n hn => h n (mem_names_iff.mpr (.inr (.inr (.inr ⟨c, hm, hn⟩))))
    rw [rename_eq, rename_eq, hshape, hty, Shape.rename_congr fun n hn => h n ?_]
    rw [Shape.names_bimap] at hn
    exact mem_names_iff.mpr (.inr (.inl hn))

theorem rename_id (t : Tree) : t.rename id = t := by
  induction t using induction with
  | step t ha hc =>
    have hshape : t.shape.bimap (rename id) (rename id) = t.shape.bimap id id :=
      Shape.bimap_congr ha hc
    rw [rename_eq, hshape, Shape.bimap_id, Shape.rename_id, Option.map_id_apply, eta]

/-- **What is left as it is has no name that is changed.** -/
theorem rename_eq_self_iff {f : Name → Name} {t : Tree} :
    t.rename f = t ↔ ∀ n ∈ t.names, f n = n := by
  constructor
  · intro h
    have hnames : t.names.map f = t.names.map id := by rw [← names_rename, h, List.map_id]
    exact List.map_inj_left.mp hnames
  · intro h
    rw [rename_congr h]
    exact rename_id t

end Tree

end Enrich
