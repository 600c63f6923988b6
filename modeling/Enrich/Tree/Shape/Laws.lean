import Enrich.Tree.Shape
/-!
# Laws of filling the holes of a layer

* `Shape.bimap_congr`: what a layer becomes depends on nothing but the values at its holes.
* `Shape.bimap_id`, `Shape.bimap_bimap`: filling the holes is a map.
* `Shape.children_bimap`: the holes keep their order.
-/

namespace Enrich

variable {α β γ δ : Type}

/-! ## 1. Filling depends on the holes alone -/

/-- Two ways to fill the annotations come to one if they agree on those that are there. -/
theorem Modifiers.map_congr {f f' : α → γ} {m : Modifiers α} (h : ∀ a ∈ m.annotations, f a = f' a) :
    m.map f = m.map f' := by
  simp only [map, mk.injEq, true_and]
  exact List.map_congr_left h

/-- The same for a value definition, whose annotations and code are filled apart. -/
theorem ValueDef.bimap_congr {f f' : α → γ} {g g' : β → δ} {d : ValueDef α β}
    (hf : ∀ a ∈ d.mods.annotations, f a = f' a) (hg : ∀ b ∈ d.children, g b = g' b) :
    d.bimap f g = d.bimap f' g' := by
  obtain ⟨m, n, t, i, s⟩ := d
  simp only [children, List.mem_append, Option.mem_toList] at hg
  simp only [bimap, mk.injEq, true_and, and_true]
  refine ⟨Modifiers.map_congr hf, ?_, ?_⟩
  · cases t with
    | none => rfl
    | some t => simp [hg t (.inl rfl)]
  · cases i with
    | none => rfl
    | some i => simp [hg i (.inr rfl)]

/-- A list of value definitions, by the annotations and the code of all of them together. -/
theorem ValueDef.map_bimap_congr {f f' : α → γ} {g g' : β → δ} {ds : List (ValueDef α β)}
    (hf : ∀ a ∈ ds.flatMap (·.mods.annotations), f a = f' a)
    (hg : ∀ b ∈ ds.flatMap children, g b = g' b) :
    ds.map (·.bimap f g) = ds.map (·.bimap f' g') := by
  refine List.map_congr_left fun d hd => ?_
  exact bimap_congr (fun a ha => hf a (List.mem_flatMap.mpr ⟨d, hd, ha⟩))
    (fun b hb => hg b (List.mem_flatMap.mpr ⟨d, hd, hb⟩))

/-- A method, its parameters taken from all groups. -/
theorem MethodDef.bimap_congr {f f' : α → γ} {g g' : β → δ} {d : MethodDef α β}
    (hf : ∀ a ∈ d.mods.annotations ++ d.params.flatMap (·.mods.annotations), f a = f' a)
    (hg : ∀ b ∈ d.children, g b = g' b) : d.bimap f g = d.bimap f' g' := by
  obtain ⟨m, n, tps, groups, r, body⟩ := d
  simp only [children, params, List.mem_append, Option.mem_toList, List.mem_singleton] at hf hg
  simp only [bimap, mk.injEq, true_and]
  refine ⟨Modifiers.map_congr fun a ha => hf a (.inl ha), ?_, ?_, hg body (.inr (.inr rfl))⟩
  · refine List.map_congr_left fun ds hds => ValueDef.map_bimap_congr ?_ ?_
    · intro a ha
      obtain ⟨d, hd, ha⟩ := List.mem_flatMap.mp ha
      exact hf a (.inr (List.mem_flatMap.mpr ⟨d, List.mem_flatten.mpr ⟨ds, hds, hd⟩, ha⟩))
    · intro b hb
      obtain ⟨d, hd, hb⟩ := List.mem_flatMap.mp hb
      exact hg b (.inl (List.mem_flatMap.mpr ⟨d, List.mem_flatten.mpr ⟨ds, hds, hd⟩, hb⟩))
  · cases r with
    | none => rfl
    | some r => simp [hg r (.inr (.inl rfl))]

theorem ClassDef.bimap_congr {f f' : α → γ} {g g' : β → δ} {d : ClassDef α β}
    (hf : ∀ a ∈ d.mods.annotations ++ d.params.flatMap (·.mods.annotations), f a = f' a)
    (hg : ∀ b ∈ d.children, g b = g' b) : d.bimap f g = d.bimap f' g' := by
  obtain ⟨m, n, tps, ps, body⟩ := d
  simp only [children, List.mem_append] at hf hg
  simp only [bimap, mk.injEq, true_and]
  exact ⟨Modifiers.map_congr fun a ha => hf a (.inl ha),
    ValueDef.map_bimap_congr (fun a ha => hf a (.inr ha)) (fun b hb => hg b (.inl hb)),
    List.map_congr_left fun b hb => hg b (.inr hb)⟩

theorem ObjectDef.bimap_congr {f f' : α → γ} {g g' : β → δ} {d : ObjectDef α β}
    (hf : ∀ a ∈ d.mods.annotations, f a = f' a) (hg : ∀ b ∈ d.body, g b = g' b) :
    d.bimap f g = d.bimap f' g' := by
  simp only [bimap, mk.injEq, true_and]
  exact ⟨Modifiers.map_congr hf, List.map_congr_left hg⟩

theorem Arm.map_congr {g g' : β → δ} {a : Arm β} (hg : ∀ b ∈ a.children, g b = g' b) :
    a.map g = a.map g' := by
  obtain ⟨p, guard, body⟩ := a
  simp only [children, List.mem_cons, List.mem_append, Option.mem_toList, List.not_mem_nil,
    or_false] at hg
  simp only [map, mk.injEq]
  refine ⟨hg p (.inl rfl), ?_, hg body (.inr (.inr rfl))⟩
  cases guard with
  | none => rfl
  | some guard => simp [hg guard (.inr (.inl rfl))]

/-- **What a layer becomes depends only on what stands at its holes.** -/
theorem Shape.bimap_congr {f f' : α → γ} {g g' : β → δ} {s : Shape α β}
    (hf : ∀ a ∈ s.annotations, f a = f' a) (hg : ∀ b ∈ s.children, g b = g' b) :
    s.bimap f g = s.bimap f' g' := by
  cases s with
  | ident | typeIdent | literal | wildcard | tag => rfl
  | select t n | new t | bind n t | quote t | splice t =>
    simp only [bimap, hg t (by simp [children])]
  | apply t args | typeApply t args | appliedType t args =>
    simp only [bimap, hg t (by simp [children])]
    rw [List.map_congr_left fun b hb => hg b (by simp [children, hb])]
  | block stats r =>
    simp only [bimap, hg r (by simp [children])]
    rw [List.map_congr_left fun b hb => hg b (by simp [children, hb])]
  | matchOn t arms =>
    simp only [bimap, hg t (by simp [children])]
    rw [List.map_congr_left fun a ha => Arm.map_congr fun b hb => hg b ?_]
    simp only [children, List.mem_cons, List.mem_flatMap]
    exact .inr ⟨a, ha, hb⟩
  | lambda ps b =>
    simp only [bimap, hg b (by simp [children])]
    rw [ValueDef.map_bimap_congr (fun a ha => hf a ha)
      (fun b hb => hg b (by simp only [children, List.mem_append]; exact .inl hb))]
  | valueDef d => exact congrArg _ (ValueDef.bimap_congr hf hg)
  | methodDef d => exact congrArg _ (MethodDef.bimap_congr hf hg)
  | classDef d => exact congrArg _ (ClassDef.bimap_congr hf hg)
  | objectDef d => exact congrArg _ (ObjectDef.bimap_congr hf hg)
  | package n stats => exact congrArg _ (List.map_congr_left hg)

/-! ## 2. Filling is a map -/

@[simp] theorem ValueDef.bimap_id (d : ValueDef α β) : d.bimap id id = d := by
  obtain ⟨⟨fl, as⟩, n, t, i, s⟩ := d
  simp [bimap, Modifiers.map]

@[simp] theorem MethodDef.bimap_id (d : MethodDef α β) : d.bimap id id = d := by
  obtain ⟨⟨fl, as⟩, n, tps, groups, r, body⟩ := d
  simp [bimap, Modifiers.map]

@[simp] theorem ClassDef.bimap_id (d : ClassDef α β) : d.bimap id id = d := by
  obtain ⟨⟨fl, as⟩, n, tps, ps, body⟩ := d
  simp [bimap, Modifiers.map]

@[simp] theorem ObjectDef.bimap_id (d : ObjectDef α β) : d.bimap id id = d := by
  obtain ⟨⟨fl, as⟩, n, body⟩ := d
  simp [bimap, Modifiers.map]

@[simp] theorem Arm.map_id (a : Arm β) : a.map id = a := by
  obtain ⟨p, g, b⟩ := a
  simp [map]

/-- Filling every hole with what stands there changes nothing. -/
@[simp] theorem Shape.bimap_id (s : Shape α β) : s.bimap id id = s := by
  cases s <;> simp [bimap]

section

variable {ε ζ : Type} (f : α → γ) (g : β → δ) (f' : γ → ε) (g' : δ → ζ)

@[simp] theorem ValueDef.bimap_bimap (d : ValueDef α β) :
    (d.bimap f g).bimap f' g' = d.bimap (f' ∘ f) (g' ∘ g) := by
  simp [bimap, Modifiers.map]

@[simp] theorem MethodDef.bimap_bimap (d : MethodDef α β) :
    (d.bimap f g).bimap f' g' = d.bimap (f' ∘ f) (g' ∘ g) := by
  simp [bimap, Modifiers.map, Function.comp_def]

@[simp] theorem ClassDef.bimap_bimap (d : ClassDef α β) :
    (d.bimap f g).bimap f' g' = d.bimap (f' ∘ f) (g' ∘ g) := by
  simp [bimap, Modifiers.map, Function.comp_def]

@[simp] theorem ObjectDef.bimap_bimap (d : ObjectDef α β) :
    (d.bimap f g).bimap f' g' = d.bimap (f' ∘ f) (g' ∘ g) := by
  simp [bimap, Modifiers.map]

/-- An arm filled twice is filled once with the composite. -/
@[simp] theorem Arm.map_map (a : Arm β) : (a.map g).map g' = a.map (g' ∘ g) := by
  simp [map]

/-- Filling the holes twice is filling them once with the composite. -/
@[simp] theorem Shape.bimap_bimap (s : Shape α β) :
    (s.bimap f g).bimap f' g' = s.bimap (f' ∘ f) (g' ∘ g) := by
  cases s <;> simp [bimap, Function.comp_def]

/-! ## 3. The order of the holes -/

/-- The code of a value definition, type before initial value, is filled in that order. -/
theorem ValueDef.children_bimap (d : ValueDef α β) :
    (d.bimap f g).children = d.children.map g := by
  obtain ⟨m, n, t, i, s⟩ := d
  cases t <;> cases i <;> rfl

theorem ValueDef.flatMap_children_bimap (ds : List (ValueDef α β)) :
    (ds.map (·.bimap f g)).flatMap children = (ds.flatMap children).map g := by
  simp [List.flatMap_map, List.map_flatMap, children_bimap]

/-- Filling does not change how parameters are grouped. -/
theorem MethodDef.params_bimap (d : MethodDef α β) :
    (d.bimap f g).params = d.params.map (.bimap f g) := List.map_flatten.symm

/-- The code of a method is filled in the order of its parameters, result and body. -/
theorem MethodDef.children_bimap (d : MethodDef α β) :
    (d.bimap f g).children = d.children.map g := by
  simp only [children, params_bimap, List.map_append, ValueDef.flatMap_children_bimap]
  cases hr : d.result <;> simp [bimap, hr]

theorem Arm.children_map (a : Arm β) : (a.map g).children = a.children.map g := by
  obtain ⟨p, guard, body⟩ := a
  cases guard <;> rfl

/-- The code in a layer is filled in the order in which it stands. -/
@[simp] theorem Shape.children_bimap (s : Shape α β) :
    (s.bimap f g).children = s.children.map g := by
  cases s with
  | ident | typeIdent | literal | wildcard | tag => rfl
  | select | new | bind | quote | splice | apply | typeApply | appliedType | package => rfl
  | block stats r => simp [bimap, children]
  | matchOn t arms => simp [bimap, children, List.flatMap_map, List.map_flatMap, Arm.children_map]
  | lambda ps b => simp [bimap, children, ValueDef.flatMap_children_bimap]
  | valueDef d => exact ValueDef.children_bimap f g d
  | methodDef d => exact MethodDef.children_bimap f g d
  | classDef d => simp [bimap, children, ClassDef.children, ClassDef.bimap,
      ValueDef.flatMap_children_bimap]
  | objectDef d => rfl

end

end Enrich
