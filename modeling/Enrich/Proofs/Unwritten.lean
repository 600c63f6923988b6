import Enrich.Proofs.Interning
import Enrich.Proofs.Wording
import Enrich.Tree.Bare
/-!
# What is not written

Neither spans nor attached types are written: a tree is written like the bare one
(`Tree.pieces_bare`).  A layer is written by the pieces of what is below it.  There are two places
where the trees below are looked at themselves, an annotation that may be a constructor call and a
pattern that may be a wildcard, and both look at forms only.

Writing a tree needs all names that are written to be known.  `Tree.print?` has no text otherwise.

* `Tree.print?_eq_some_iff`: when there is a text, and which.
* `Tree.print?_of_knows`: a tree whose names are known can be written.
* `Tree.dropTypes_eq_self_iff`: dropping changes a tree exactly if there is something to drop.
* `Tree.dropTypes_agrees`: the main statement.
-/

namespace Enrich

/-! ## 1. One layer -/

namespace Layout

/-- A layer is written by the pieces of what is in it, whatever it is; only an annotation and a
pattern that names what it matches have their forms looked at. -/
theorem layer_bimap {f g : Written → Written} (s : Shape Written Written)
    (hannotated : ∀ a, annotated (f a) = annotated a)
    (hpieces : ∀ c, (g c).2 = c.2) (hkind : ∀ c, (g c).1.kind = c.1.kind) :
    layer (s.bimap f g) = layer s := by
  have hmods : ∀ m : Modifiers Written, modifiers (m.map f) = modifiers m := fun m => by
    simp [modifiers, Modifiers.map, List.flatMap_map, hannotated]
  have hafter : ∀ lead (t : Option Written), after lead (t.map g) = after lead t := fun lead t => by
    cases t <;> simp [after, hpieces]
  have hsnd : (fun c => (g c).2) = Prod.snd := funext hpieces
  have hvalue : ∀ d : ValueDef Written Written, valueDef (d.bimap f g) = valueDef d := fun d => by
    have hflags : (d.mods.map f).flags = d.mods.flags := rfl
    simp [valueDef, ValueDef.bimap, hmods, hflags, typed, hafter]
  have hgroup : ∀ ps : List (ValueDef Written Written),
      group (ps.map (·.bimap f g)) = group ps := fun ps => by
    simp [group, ValueDef.bimap, Modifiers.map, typed, hafter, Function.comp_def]
  have hmembers : ∀ ts, members (ts.map g) = members ts := fun ts => by
    simp [members, hsnd, Function.comp_def]
  cases s with
  | matchOn t arms =>
    have harm : ∀ a : Arm Written, arm (a.map g) = arm a := fun a => by
      simp [arm, Arm.map, hafter, hpieces]
    simp [Shape.bimap, layer, hpieces, harm, Function.comp_def]
  | methodDef d =>
    simp [Shape.bimap, layer, methodDef, MethodDef.bimap, hmods, hafter, hpieces,
      List.flatMap_map, hgroup]
  | valueDef d => exact hvalue d
  | classDef d => simp [Shape.bimap, layer, classDef, ClassDef.bimap, hmods, hgroup, hmembers]
  | objectDef d => simp [Shape.bimap, layer, objectDef, ObjectDef.bimap, hmods, hmembers]
  | _ => simp [Shape.bimap, layer, hpieces, hkind, hgroup, hmembers, Function.comp_def]

/-- The spans in a layer are not written. -/
theorem layer_bare (s : Shape Written Written) : layer s.bare = layer s := by
  have hgroup : ∀ ps : List (ValueDef Written Written), group (ps.map .bare) = group ps :=
    fun ps => by simp [group, ValueDef.bare, Function.comp_def]
  have htparams : ∀ tps : List TypeParam, typeParams (tps.map .bare) = typeParams tps := fun tps => by
    cases tps <;> simp [typeParams, TypeParam.bare, Function.comp_def]
  cases s with
  | lambda ps b => simp [Shape.bare, layer, hgroup]
  | methodDef d =>
    simp [Shape.bare, layer, methodDef, MethodDef.bare, htparams, List.flatMap_map, hgroup]
  | classDef d => simp [Shape.bare, layer, classDef, ClassDef.bare, htparams, hgroup]
  | _ => rfl

theorem isConstructorCall_bare (t : Tree) : isConstructorCall t.bare = isConstructorCall t := by
  rw [isConstructorCall, Tree.bare_eq, isConstructorCall]
  cases t.shape with
  | apply fn args =>
    simp only [Shape.bimap, Shape.bare, Tree.bare_eq fn]
    cases fn.shape <;> rfl
  | _ => rfl

end Layout

/-! ## 2. Trees in writing -/

/-- A piece in writing, if its name is known. -/
def Piece.write? (i : Interner) : Piece → Option String
  | .text s => some s
  | .name n => i.lookup? n
  | .quoted n => (i.lookup? n).map Text.quote

theorem Piece.write?_eq_some_iff {i : Interner} {p : Piece} {text : String} :
    p.write? i = some text ↔ (∀ n ∈ p.names, i.Knows n) ∧ p.write i = text := by
  cases p with
  | text s => simp [write?, write, names]
  | name n => simp [write?, write, names, Interner.lookup?_eq_some_iff]
  | quoted n =>
    simp only [write?, write, names, List.mem_singleton, forall_eq, Option.map_eq_some_iff,
      Interner.lookup?_eq_some_iff]
    constructor
    · rintro ⟨text, ⟨hn, rfl⟩, rfl⟩
      exact ⟨hn, rfl⟩
    · rintro ⟨hn, rfl⟩
      exact ⟨_, ⟨hn, rfl⟩, rfl⟩

namespace Tree

/-- A tree in writing, if all names that are written are known. -/
def print? (i : Interner) (t : Tree) : Option String :=
  (t.pieces.mapM (Piece.write? i)).map String.join

variable {i : Interner} {t : Tree}

/-- **When a tree can be written**, and as what. -/
theorem print?_eq_some_iff {text : String} :
    t.print? i = some text ↔
      (∀ p ∈ t.pieces, ∀ n ∈ p.names, i.Knows n) ∧ t.print i = text := by
  have hall : ∀ (ps : List Piece) (texts : List String),
      ps.mapM (Piece.write? i) = some texts ↔
        (∀ p ∈ ps, ∀ n ∈ p.names, i.Knows n) ∧ ps.map (Piece.write i) = texts := by
    intro ps
    induction ps with
    | nil => simp [eq_comm]
    | cons p ps ih =>
      intro texts
      simp only [List.mapM_cons, Option.bind_eq_bind, Option.bind_eq_some_iff, ih,
        Piece.write?_eq_some_iff, List.forall_mem_cons, List.map_cons, Option.pure_def,
        Option.some.injEq]
      constructor
      · rintro ⟨a, ⟨hp, rfl⟩, l, ⟨hps, rfl⟩, rfl⟩
        exact ⟨⟨hp, hps⟩, rfl⟩
      · rintro ⟨⟨hp, hps⟩, rfl⟩
        exact ⟨_, ⟨hp, rfl⟩, _, ⟨hps, rfl⟩, rfl⟩
  simp only [print?, Option.map_eq_some_iff, hall, print, writePieces]
  constructor
  · rintro ⟨texts, ⟨hknown, rfl⟩, rfl⟩
    exact ⟨hknown, rfl⟩
  · rintro ⟨hknown, rfl⟩
    exact ⟨_, ⟨hknown, rfl⟩, rfl⟩

/-- **A tree whose names are known can be written.** -/
theorem print?_of_knows (h : ∀ n ∈ t.names, i.Knows n) : t.print? i = some (t.print i) :=
  print?_eq_some_iff.mpr ⟨fun _ hp n hn => h n (mem_names_of_mem_pieces hp hn), rfl⟩

/-- **A tree is written like the bare one.** -/
theorem pieces_bare (t : Tree) : t.bare.pieces = t.pieces := by
  induction t using induction with
  | step t ha hc =>
    let written (u : Tree) : Layout.Written := (u, u.pieces)
    let stripped (w : Layout.Written) : Layout.Written := (w.1.bare, w.2)
    have hpair : ∀ u : Tree, u.bare.pieces = u.pieces → written u.bare = stripped (written u) :=
      fun u hu => congrArg (u.bare, ·) hu
    have hannotated : ∀ a, Layout.annotated (stripped a) = Layout.annotated a := fun a => by
      simp only [Layout.annotated, stripped, Layout.isConstructorCall_bare]
    calc t.bare.pieces = Layout.layer (t.shape.bimap (written ∘ bare) (written ∘ bare)).bare := by
          rw [pieces_eq, bare_eq, ← Shape.bare_bimap, Shape.bimap_bimap]
      _ = Layout.layer (t.shape.bimap (stripped ∘ written) (stripped ∘ written)) := by
          rw [Layout.layer_bare]
          exact congrArg Layout.layer (Shape.bimap_congr (fun a hm => hpair a (ha a hm))
            fun c hm => hpair c (hc c hm))
      _ = Layout.layer (t.shape.bimap written written) := by
          rw [← Shape.bimap_bimap]
          exact Layout.layer_bimap _ hannotated (fun _ => rfl) fun c => kind_bare c.1
      _ = t.pieces := (pieces_eq t).symm

/-- Trees that differ in spans and attached types only are written alike. -/
theorem pieces_eq_of_bare_eq {u : Tree} (h : t.bare = u.bare) : t.pieces = u.pieces := by
  rw [← pieces_bare t, h, pieces_bare]

/-- Attached types are not written. -/
theorem pieces_dropTypes (t : Tree) : t.dropTypes.pieces = t.pieces :=
  pieces_eq_of_bare_eq (bare_dropTypes t)

theorem print_dropTypes (t : Tree) (i : Interner) : t.dropTypes.print i = t.print i := by
  rw [print, print, pieces_dropTypes]

end Tree

/-! ## 3. Attached types -/

/-- A layer stays as it is exactly if all its code does. -/
theorem Shape.map_eq_self_iff {α β : Type} {g : β → β} {s : Shape α β} :
    s.map g = s ↔ ∀ b ∈ s.children, g b = b := by
  constructor
  · intro h
    have hmap : s.children.map g = s.children.map id := by
      rw [List.map_id, ← Shape.children_bimap id g s]
      exact congrArg children h
    exact List.map_inj_left.mp hmap
  · intro h
    calc s.map g = s.bimap id id := bimap_congr (fun _ _ => rfl) h
      _ = s := bimap_id s

namespace Tree

/-- Dropping changes a tree exactly if there is something to drop. -/
theorem dropTypes_eq_self_iff (t : Tree) : t.dropTypes = t ↔ t.hasTypes = false := by
  induction t using induction with
  | step t _ ih =>
    have hshape : t.dropTypes = t ↔ t.shape.map dropTypes = t.shape ∧ t.ty = none := by
      rw [dropTypes_eq]
      obtain ⟨s, sp, ty⟩ := t
      simp [eq_comm]
    rw [hshape, Shape.map_eq_self_iff, hasTypes_eq, Bool.or_eq_false_iff, List.any_eq_false,
      and_comm]
    refine and_congr (by simp) (forall₂_congr fun c hc => ?_)
    rw [ih c hc, Bool.not_eq_true]

/-- Nothing is left to drop. -/
theorem hasTypes_dropTypes (t : Tree) : t.dropTypes.hasTypes = false := by
  induction t using induction with
  | step t _ ih =>
    rw [dropTypes_eq, hasTypes_eq, Shape.map, Shape.children_bimap, List.any_map,
      Option.isSome_none, Bool.false_or, List.any_eq_false]
    exact fun c hc => Bool.not_eq_true _ ▸ ih c hc

/-- **Dropping types, looking for them and writing agree.**  A tree has attached types exactly if
dropping them changes it, and afterwards it has none, so dropping them again changes nothing.  With
the attached types dropped a tree is written as it was, in every interner that it can be written
with; and so are any two trees that differ in spans and attached types only, wherever in them. -/
theorem dropTypes_agrees (t : Tree) :
    (t.hasTypes = false ↔ t.dropTypes = t) ∧ t.dropTypes.hasTypes = false ∧
      t.dropTypes.dropTypes = t.dropTypes ∧
      (∀ i, t.dropTypes.print? i = t.print? i ∧ t.dropTypes.print i = t.print i) ∧
      ∀ u : Tree, t.bare = u.bare → ∀ i, t.print? i = u.print? i ∧ t.print i = u.print i := by
  have halike : ∀ {t u : Tree}, t.bare = u.bare →
      ∀ i, t.print? i = u.print? i ∧ t.print i = u.print i := fun h i => by
    have hpieces := pieces_eq_of_bare_eq h
    simp only [print?, print, hpieces, and_self]
  have hnone := hasTypes_dropTypes t
  exact ⟨(dropTypes_eq_self_iff t).symm, hnone, (dropTypes_eq_self_iff _).mpr hnone,
    halike (bare_dropTypes t), fun _ h => halike h⟩

/-- An annotated value that was read and typed, and the same that was not; the types differ inside
the annotation, too. -/
theorem dropTypes_agrees_value :
    let value (span : Span) (ty : Option Name) : Tree :=
      let note : Tree := ⟨.apply ⟨.new ⟨.typeIdent ⟨2⟩, span, ty⟩, span, none⟩ [], span, ty⟩
      ⟨.valueDef {
          mods := { annotations := [note] }
          name := ⟨1⟩, tpe := none, init := some ⟨.ident ⟨3⟩, span, ty⟩, span }, span, ty⟩
    let t := value ⟨4, 9⟩ (some ⟨5⟩)
    let u := value .nowhere none
    t.bare = u.bare ∧ t ≠ u ∧ t.print? .new = some "@Apply() val self = List" ∧
      u.print? .new = t.print? .new := by
  intro value t u
  have hbare : t.bare = u.bare := by decide +kernel
  obtain ⟨-, -, -, -, halike⟩ := dropTypes_agrees t
  refine ⟨hbare, by decide +kernel, by decide +kernel, ?_⟩
  exact ((halike u hbare .new).1).symm

end Tree

end Enrich
