import Enrich.Proofs.Renaming
/-!
# Reports do not depend on how names are numbered

A report is put into words when the run is over, from a finding and the texts of the names in it.
So a finding under other names, with the same texts, makes the same report.

A tree is written from its pieces.  Renaming a tree renames its pieces (`Tree.pieces_rename`), and
the names that are written are names of the tree (`Tree.mem_names_of_mem_pieces`): a renaming that
leaves the tree as it is leaves its pieces as they are.

* `Tree.print_rename`: trees in writing.
* `Finding.diagnostic_rename`: the main statement.
-/

namespace Enrich

/-! ## 1. The layout of a tree -/

def Piece.names : Piece → List Name
  | .text _ => []
  | .name n | .quoted n => [n]

def Piece.rename (f : Name → Name) : Piece → Piece
  | .text s => .text s
  | .name n => .name (f n)
  | .quoted n => .quoted (f n)

namespace Layout

variable (f : Name → Name)

/-- Renames a tree that comes with its pieces. -/
def Written.rename (w : Written) : Written := (w.1.rename f, w.2.map (Piece.rename f))

/-- Renaming goes under the commas: the words between the pieces hold no names. -/
theorem map_commas (xs : List (List Piece)) :
    (commas xs).map (.rename f) = commas (xs.map (·.map (.rename f))) := by
  induction xs with
  | nil => rfl
  | cons x xs ih =>
    cases xs with
    | nil => simp [commas]
    | cons y xs =>
      simp only [commas, List.map_cons, List.intercalate_cons_cons, List.map_append] at ih ⊢
      rw [ih]
      rfl

theorem map_semicolons (xs : List (List Piece)) :
    (semicolons xs).map (.rename f) = semicolons (xs.map (·.map (.rename f))) := by
  simp [semicolons, List.map_flatMap, List.flatMap_map, Piece.rename]

theorem map_round (xs : List (List Piece)) :
    (round xs).map (.rename f) = round (xs.map (·.map (.rename f))) := by
  simp [round, map_commas, Piece.rename]

theorem map_square (xs : List (List Piece)) :
    (square xs).map (.rename f) = square (xs.map (·.map (.rename f))) := by
  simp [square, map_commas, Piece.rename]

theorem map_after (lead : String) (o : Option Written) :
    (after lead o).map (.rename f) = after lead (o.map (.rename f)) := by
  cases o <;> rfl

/-- Whether an annotation calls a constructor is told by its layer alone. -/
theorem isConstructorCall_rename (t : Tree) :
    isConstructorCall (t.rename f) = isConstructorCall t := by
  rw [isConstructorCall, Tree.shape_rename, isConstructorCall]
  cases t.shape with
  | apply fn args =>
    simp only [Shape.bimap, Shape.rename, Tree.shape_rename]
    cases fn.shape <;> rfl
  | _ => rfl

theorem map_annotated (a : Written) :
    (annotated a).map (.rename f) = annotated (a.rename f) := by
  have hcall : isConstructorCall (a.rename f).1 = isConstructorCall a.1 :=
    isConstructorCall_rename f a.1
  rw [annotated, annotated, hcall, List.map_cons, List.map_append]
  split
  · rw [List.map_drop]
    rfl
  · rfl

theorem map_flagWords (fl : Flags) : (flagWords fl).map (.rename f) = flagWords fl := by
  obtain ⟨a, b, c, d, e, g⟩ := fl
  cases a <;> cases b <;> cases c <;> cases g <;> rfl

/-- Modifiers are written with the renamed annotations. -/
theorem map_modifiers (m : Modifiers Written) :
    (modifiers m).map (.rename f) = modifiers (m.map (.rename f)) := by
  simp only [modifiers, Modifiers.map, List.map_append, map_flagWords, List.map_flatMap,
    List.flatMap_map, map_annotated]

theorem map_literal (v : Literal) : (literal v).map (.rename f) = literal (v.rename f) := by
  cases v with
  | bool b => cases b <;> rfl
  | _ => rfl

theorem map_typed (n : Name) (tpe : Option Written) :
    (typed n tpe).map (.rename f) = typed (f n) (tpe.map (.rename f)) := by
  rw [typed, List.map_cons, map_after]
  rfl

theorem map_typeParams (tps : List TypeParam) :
    (typeParams tps).map (.rename f) = typeParams (tps.map (.rename f)) := by
  cases tps with
  | nil => rfl
  | cons tp tps =>
    simp only [typeParams, map_square, List.map_cons, List.map_map]
    rfl

/-- Renames a parameter whose parts come with their pieces. -/
abbrev renameValue (d : ValueDef Written Written) : ValueDef Written Written :=
  (d.bimap (.rename f) (.rename f)).rename f

theorem map_group (ps : List (ValueDef Written Written)) :
    (group ps).map (.rename f) = group (ps.map (renameValue f)) := by
  have hlead : (ps.map (renameValue f)).any (·.mods.flags.isImplicit) =
      ps.any (·.mods.flags.isImplicit) := by
    rw [List.any_map]
    rfl
  rw [group, group, hlead]
  simp only [List.map_cons, List.map_append, map_commas, List.map_map, Function.comp_def, map_typed]
  split <;> rfl

/-- A value definition is written with its renamed name, type and initial value. -/
theorem map_valueDef (d : ValueDef Written Written) :
    (valueDef d).map (.rename f) = valueDef (renameValue f d) := by
  have hflags : (renameValue f d).mods.flags = d.mods.flags := rfl
  rw [valueDef, valueDef, hflags]
  split
  · exact map_typed f d.name d.tpe
  · simp only [List.map_append, map_modifiers, map_typed, map_after]
    rfl

/-- A body is written with its renamed members. -/
theorem map_members (ts : List Written) :
    (members ts).map (.rename f) = members (ts.map (.rename f)) := by
  simp only [members, List.map_cons, List.map_append, map_semicolons, List.map_map]
  rfl

theorem map_arm (a : Arm Written) : (arm a).map (.rename f) = arm (a.map (.rename f)) := by
  simp only [arm, List.map_cons, List.map_append, map_after]
  rfl

/-- **One layer.** -/
theorem map_layer (s : Shape Written Written) :
    (layer s).map (.rename f) = layer ((s.bimap (.rename f) (.rename f)).rename f) := by
  have hsnd : ∀ ts : List Written, (ts.map Prod.snd).map (List.map (Piece.rename f)) =
      (ts.map (Written.rename f)).map Prod.snd := fun ts => by
    rw [List.map_map, List.map_map]
    rfl
  cases s with
  | literal v => exact map_literal f v
  | apply t args =>
    simp only [layer, List.map_append, map_round, hsnd]
    rfl
  | typeApply t args | appliedType t args =>
    simp only [layer, List.map_append, map_square, hsnd]
    rfl
  | block stats r =>
    simp only [layer, List.map_cons, List.map_append, map_semicolons, hsnd]
    rfl
  | matchOn t arms =>
    have harms : (arms.map arm).map (List.map (Piece.rename f)) =
        (arms.map (.map (Written.rename f))).map arm := by
      simp only [List.map_map, Function.comp_def, map_arm]
    simp only [layer, List.map_cons, List.map_append, map_semicolons, harms]
    rfl
  | bind n p =>
    have hkind : (p.rename f).1.kind = p.1.kind := Tree.kind_rename f p.1
    simp only [layer, Shape.bimap, Shape.rename, hkind, List.map_cons]
    split <;> rfl
  | lambda ps b =>
    simp only [layer, List.map_cons, List.map_append, map_group, Shape.bimap, Shape.rename,
      List.map_map]
    rfl
  | valueDef d => exact map_valueDef f d
  | methodDef d =>
    have hgroups : (d.groups.flatMap group).map (Piece.rename f) =
        ((d.bimap (.rename f) (.rename f)).rename f).groups.flatMap group := by
      simp only [MethodDef.bimap, MethodDef.rename, List.map_flatMap, List.flatMap_map,
        List.map_map, map_group, Function.comp_def]
    simp only [layer, methodDef, List.map_append, List.map_cons, map_modifiers, map_typeParams,
      map_after, hgroups]
    rfl
  | classDef d =>
    simp only [layer, classDef, List.map_append, map_modifiers, map_typeParams, map_group,
      map_members, Shape.bimap, Shape.rename, ClassDef.bimap, ClassDef.rename, List.map_map]
    rfl
  | objectDef d =>
    simp only [layer, objectDef, List.map_append, map_modifiers, map_members]
    rfl
  | package n stats =>
    simp only [layer, List.map_cons, map_members]
    rfl
  | select t n | new t | quote t | splice t =>
    simp only [layer, List.map_cons, List.map_append]
    rfl
  | ident | typeIdent | wildcard | tag => rfl

end Layout

namespace Tree

variable {f : Name → Name}

/-- **Renaming a tree renames its pieces.** -/
theorem pieces_rename (t : Tree) : (t.rename f).pieces = t.pieces.map (.rename f) := by
  induction t using induction with
  | step t ha hc =>
    let written (u : Tree) : Layout.Written := (u, u.pieces)
    have hpair : ∀ u : Tree, (u.rename f).pieces = u.pieces.map (.rename f) →
        written (u.rename f) = (written u).rename f := fun u hu => congrArg (u.rename f, ·) hu
    have hshape : t.shape.bimap (written ∘ rename f) (written ∘ rename f) =
        t.shape.bimap (Layout.Written.rename f ∘ written) (Layout.Written.rename f ∘ written) :=
      Shape.bimap_congr (fun a hm => hpair a (ha a hm)) fun c hm => hpair c (hc c hm)
    rw [pieces_eq, pieces_eq t, Layout.map_layer, shape_rename, ← Shape.rename_bimap,
      Shape.bimap_bimap, Shape.bimap_bimap]
    exact congrArg (fun s => Layout.layer (Shape.rename f s)) hshape

/-- The names that are written are names of the tree. -/
theorem mem_names_of_mem_pieces {t : Tree} {p : Piece} {n : Name} (hp : p ∈ t.pieces)
    (hn : n ∈ p.names) : n ∈ t.names := by
  -- change all names that are not in the tree: it stays as it is, and with it its pieces
  obtain ⟨f, -, hfix⟩ := exists_renaming_fixing t.names
  have hself : t.rename f = t := rename_eq_self_iff.mpr fun m hm => (hfix m).mpr hm
  have hpieces : t.pieces.map (.rename f) = t.pieces.map id := by
    rw [← pieces_rename, hself, List.map_id]
  have hpiece : p.rename f = p := List.map_inj_left.mp hpieces p hp
  have hfixed : f n = n := by
    cases p with
    | text s => exact absurd hn List.not_mem_nil
    | name m | quoted m =>
      obtain rfl := List.mem_singleton.mp hn
      simpa [Piece.rename] using hpiece
  exact (hfix n).mp hfixed

/-- **A tree in writing** depends on the texts of its names alone. -/
theorem print_rename {t : Tree} {i j : Interner} (h : ∀ n ∈ t.names, j.text (f n) = i.text n) :
    (t.rename f).print j = t.print i := by
  rw [print, print, writePieces, writePieces, pieces_rename, List.map_map]
  refine congrArg String.join (List.map_congr_left fun p hp => ?_)
  have htext : ∀ n ∈ p.names, j.text (f n) = i.text n := fun n hn =>
    h n (mem_names_of_mem_pieces hp hn)
  cases p with
  | text s => rfl
  | name n => exact htext n (List.mem_singleton_self n)
  | quoted n => exact congrArg Text.quote (htext n (List.mem_singleton_self n))

end Tree

/-! ## 2. Findings in words -/

def Fault.names : Fault → List Name
  | .malformed _ _ => []
  | .several name _ _ => [name]
  | .oldSpelling _ removed => removed.toList
  | .targetNotHandled payload _ => payload.names
  | .missingResult name _ => [name]
  | .redeclared b => [b.name]

def Remark.names : Remark → List Name
  | .runtimeWrapper name _ | .notExpanded name _ => [name]

/-- The names in a finding. -/
def Finding.names : Finding → List Name
  | .fault x => x.names
  | .remark r => r.names

/-- A renamed finding speaks of the renamed names. -/
theorem Finding.names_rename (f : Name → Name) (x : Finding) :
    (x.rename f).names = x.names.map f := by
  cases x with
  | fault x =>
    cases x with
    | oldSpelling span removed => cases removed <;> rfl
    | targetNotHandled payload span => exact payload.names_rename f
    | _ => rfl
  | remark r => cases r <;> rfl

/-- **A finding in words** depends on the texts of its names, and on how the annotations are
spelled. -/
theorem Finding.diagnostic_rename {f : Name → Name} {x : Finding} {i j : Interner}
    {names : AnnotationNames} (hx : ∀ n ∈ x.names, j.text (f n) = i.text n)
    (hstaged : j.text (f names.staged) = i.text names.staged)
    (hdeprecated : j.text (f names.deprecated) = i.text names.deprecated) :
    (x.rename f).diagnostic (names.rename f) j = x.diagnostic names i := by
  cases x with
  | fault x =>
    cases x with
    | malformed => rfl
    | oldSpelling span removed =>
      cases removed with
      | none =>
        simp [rename, Fault.rename, diagnostic, Fault.diagnostic, AnnotationNames.rename, hstaged,
          hdeprecated, Fault.code]
      | some n =>
        have hn := hx n (List.mem_singleton_self n)
        simp [rename, Fault.rename, diagnostic, Fault.diagnostic, AnnotationNames.rename, hstaged,
          hdeprecated, hn, Fault.code]
    | targetNotHandled payload span =>
      have hprint : (payload.rename f).print j = payload.print i := Tree.print_rename hx
      simp [rename, Fault.rename, diagnostic, Fault.diagnostic, hprint, Fault.code]
    | several n | missingResult n =>
      have hn := hx n (List.mem_singleton_self n)
      simp [rename, Fault.rename, diagnostic, Fault.diagnostic, hn, Fault.code]
    | redeclared b =>
      have hn := hx b.name (List.mem_singleton_self _)
      simp [rename, Fault.rename, diagnostic, Fault.diagnostic, Binding.rename, hn, Fault.code]
  | remark r =>
    cases r with
    | runtimeWrapper n | notExpanded n =>
      have hn := hx n (List.mem_singleton_self n)
      simp [rename, Remark.rename, diagnostic, Remark.diagnostic, hn, Remark.code]

end Enrich
