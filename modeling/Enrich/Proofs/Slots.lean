import Enrich.Tree.Rebuild
import Enrich.Tree.Shape.Laws
/-!
# A layer is its form and its slots

A pass that overrides nothing but the handling of member lists meets a layer as a row of *slots*:
single subtrees and whole lists of members.  What is left of the layer when the slots are taken out
is its *form*.  The two together are the layer (`Shape.eq_of_parts`), and such a pass keeps the form
and handles the slots from first to last (`Rebuild.parts_layer`).

So whatever has to be said about a pass over trees is said about one `List.mapM`, and the forms of
syntax are gone through here and nowhere else.

* `Shape.eq_of_parts`: two layers of one form with the same slots are the same.
* `Shape.children_eq_slots`: the code in a layer is the code in its slots.
* `Rebuild.parts_layer`: the equation of a layer under a pass on members.
-/

namespace Enrich

variable {α β γ δ : Type}

/-! ## 1. Slots and forms -/

/-- A place in a layer that a pass on members handles as a whole. -/
inductive Slot (β : Type) where
  /-- A single subtree. -/
  | one (tree : β)
  /-- A list of members. -/
  | members (scope : Scope) (trees : List β)
deriving DecidableEq

namespace Slot

/-- The code in a slot. -/
def children : Slot β → List β
  | .one c => [c]
  | .members _ cs => cs

/-- Fills the holes of a slot anew. -/
def map (g : β → γ) : Slot β → Slot γ
  | .one c => .one (g c)
  | .members scope cs => .members scope (cs.map g)

end Slot

namespace Shape

/-- The slots of a layer, in the order in which every pass meets them. -/
def slots : Shape α β → List (Slot β)
  | .block stats r => [.members .enclosed stats, .one r]
  | .classDef d => (d.params.flatMap ValueDef.children).map .one ++ [.members .enclosed d.body]
  | .objectDef d => [.members .container d.body]
  | .package _ stats => [.members .container stats]
  | s => s.children.map .one

/-- What is left of a layer when its slots are taken out. -/
def form : Shape α β → Shape α Unit
  | .block _ _ => .block [] ()
  | .classDef d => .classDef { d with params := d.params.map (·.bimap id fun _ => ()), body := [] }
  | .objectDef d => .objectDef { d with body := [] }
  | .package n _ => .package n []
  | s => s.map fun _ => ()

/-- The code in a layer is the code in its slots. -/
theorem children_eq_slots (s : Shape α β) : s.children = s.slots.flatMap Slot.children := by
  have hone : ∀ l : List β, (l.map Slot.one).flatMap Slot.children = l := fun l => by
    simp [List.flatMap_map, Slot.children]
  cases s <;> simp [slots, children, hone, Slot.children, ClassDef.children]

/-- The slots of a filled layer are its slots, filled. -/
theorem slots_bimap (f : α → γ) (g : β → δ) (s : Shape α β) :
    (s.bimap f g).slots = s.slots.map (Slot.map g) := by
  have hone : ∀ l : List β, (l.map Slot.one).map (Slot.map g) = (l.map g).map Slot.one := by
    simp [Slot.map]
  have hchildren : ∀ s : Shape α β, (s.children.map g).map Slot.one =
      (s.children.map Slot.one).map (Slot.map g) := fun s => (hone _).symm
  cases s with
  | block | objectDef | package => rfl
  | classDef d =>
    simp [bimap, slots, ClassDef.bimap, ValueDef.flatMap_children_bimap, Slot.map]
  | _ => simp only [slots, ← hchildren, ← children_bimap f g]; rfl

theorem slots_map (g : β → γ) (s : Shape α β) : (s.map g).slots = s.slots.map (Slot.map g) :=
  s.slots_bimap id g

/-- A form still has its annotations, and they are filled like those of the layer. -/
theorem form_bimap (f : α → γ) (g : β → δ) (s : Shape α β) :
    (s.bimap f g).form = s.form.bimap f id := by
  cases s <;> simp [map, form, bimap, ClassDef.bimap, ObjectDef.bimap, Modifiers.map,
    Function.comp_def]

/-- The form of a layer does not depend on the code in it. -/
theorem form_map (g : β → γ) (s : Shape α β) : (s.map g).form = s.form := by
  rw [map, form_bimap, bimap_id]

end Shape

/-! ## 2. Form and slots determine a layer

Each part of a layer is read off the front of the list of its holes, given the form; the rest of
the list is left for the parts after it. -/

/-- What may be absent is given by whether it is there and by the code it adds to the list.  The
rest of the list is a parameter so that such lemmas can be chained. -/
private theorem option_of_holes {o o' : Option β} {l l' : List β}
    (hf : o.map (fun _ => ()) = o'.map fun _ => ()) (hh : o.toList ++ l = o'.toList ++ l') :
    o = o' ∧ l = l' := by
  cases o <;> cases o' <;> simp_all

/-- A value definition is given by its form and the code it adds. -/
private theorem value_of_holes {d d' : ValueDef α β} {l l' : List β}
    (hf : d.bimap id (fun _ => ()) = d'.bimap id fun _ => ())
    (hh : d.children ++ l = d'.children ++ l') : d = d' ∧ l = l' := by
  obtain ⟨⟨fl, as⟩, n, t, i, s⟩ := d
  obtain ⟨⟨fl', as'⟩, n', t', i', s'⟩ := d'
  simp only [ValueDef.bimap, Modifiers.map, List.map_id, ValueDef.mk.injEq, Modifiers.mk.injEq]
    at hf
  obtain ⟨⟨rfl, rfl⟩, rfl, ht, hi, rfl⟩ := hf
  simp only [ValueDef.children, List.append_assoc] at hh
  obtain ⟨rfl, hh₁⟩ := option_of_holes ht hh
  obtain ⟨rfl, hh₂⟩ := option_of_holes hi hh₁
  exact ⟨rfl, hh₂⟩

/-- So is a list of them, since the forms say how much of the code each takes. -/
private theorem values_of_holes : ∀ {ps ps' : List (ValueDef α β)} {l l' : List β},
    ps.map (·.bimap id fun _ => ()) = ps'.map (·.bimap id fun _ => ()) →
    ps.flatMap ValueDef.children ++ l = ps'.flatMap ValueDef.children ++ l' → ps = ps' ∧ l = l'
  | [], [], _, _, _, hh => ⟨rfl, hh⟩
  | [], _ :: _, _, _, hf, _ => by simp at hf
  | _ :: _, [], _, _, hf, _ => by simp at hf
  | p :: ps, p' :: ps', l, l', hf, hh => by
    simp only [List.map_cons, List.cons.injEq] at hf
    simp only [List.flatMap_cons, List.append_assoc] at hh
    obtain ⟨rfl, hh₁⟩ := value_of_holes hf.1 hh
    obtain ⟨rfl, hh₂⟩ := values_of_holes hf.2 hh₁
    exact ⟨rfl, hh₂⟩

/-- So are the groups of parameters. -/
private theorem groups_of_holes : ∀ {gs gs' : List (List (ValueDef α β))} {l l' : List β},
    gs.map (·.map (·.bimap id fun _ => ())) = gs'.map (·.map (·.bimap id fun _ => ())) →
    gs.flatten.flatMap ValueDef.children ++ l = gs'.flatten.flatMap ValueDef.children ++ l' →
    gs = gs' ∧ l = l'
  | [], [], _, _, _, hh => ⟨rfl, hh⟩
  | [], _ :: _, _, _, hf, _ => by simp at hf
  | _ :: _, [], _, _, hf, _ => by simp at hf
  | g :: gs, g' :: gs', l, l', hf, hh => by
    simp only [List.map_cons, List.cons.injEq] at hf
    simp only [List.flatten_cons, List.flatMap_append, List.append_assoc] at hh
    obtain ⟨rfl, hh₁⟩ := values_of_holes hf.1 hh
    obtain ⟨rfl, hh₂⟩ := groups_of_holes hf.2 hh₁
    exact ⟨rfl, hh₂⟩

private theorem arms_of_holes : ∀ {as as' : List (Arm β)},
    as.map (·.map fun _ => ()) = as'.map (·.map fun _ => ()) →
    as.flatMap Arm.children = as'.flatMap Arm.children → as = as'
  | [], [], _, _ => rfl
  | [], _ :: _, hf, _ => by simp at hf
  | _ :: _, [], hf, _ => by simp at hf
  | ⟨p, g, b⟩ :: as, ⟨p', g', b'⟩ :: as', hf, hh => by
    simp only [List.map_cons, List.cons.injEq, Arm.map, Arm.mk.injEq] at hf
    simp only [List.flatMap_cons, Arm.children, List.cons_append, List.append_assoc,
      List.cons.injEq] at hh
    obtain ⟨rfl, hh₁⟩ := hh
    obtain ⟨rfl, hh₂⟩ := option_of_holes hf.1.2.1 hh₁
    obtain ⟨rfl, hh₃⟩ := List.cons.inj hh₂
    rw [arms_of_holes hf.2 hh₃]

private theorem map_one_inj {l l' : List β} : l.map Slot.one = l'.map Slot.one ↔ l = l' :=
  List.map_inj_right fun _ _ h => Slot.one.inj h

/-- **A layer is its form and its slots.** -/
theorem Shape.eq_of_parts {s s' : Shape α β} (hf : s.form = s'.form) (hs : s.slots = s'.slots) :
    s = s' := by
  cases s with
  | ident | typeIdent | literal | wildcard | tag =>
    cases s' <;> simp_all [form, map, bimap]
  | select | new | bind | quote | splice =>
    cases s' <;> simp_all [form, map, bimap, slots, children]
  | apply t args | typeApply t args | appliedType t args =>
    cases s' <;> simp_all [form, map, bimap, slots, children, map_one_inj]
  | block | package => cases s' <;> simp_all [form, map, bimap, slots]
  | matchOn t arms =>
    cases s' with
    | matchOn t' arms' =>
      simp only [slots, children, map_one_inj, List.cons.injEq] at hs
      simp only [form, map, bimap, matchOn.injEq, true_and] at hf
      rw [hs.1, arms_of_holes hf hs.2]
    | _ => simp [form, map, bimap] at hf
  | lambda ps b =>
    cases s' with
    | lambda ps' b' =>
      simp only [slots, children, map_one_inj] at hs
      simp only [form, map, bimap, lambda.injEq, and_true] at hf
      obtain ⟨rfl, hb⟩ := values_of_holes hf hs
      rw [List.singleton_inj.mp hb]
    | _ => simp [form, map, bimap] at hf
  | valueDef d =>
    cases s' with
    | valueDef d' =>
      simp only [slots, children, map_one_inj] at hs
      simp only [form, map, bimap, valueDef.injEq] at hf
      rw [(value_of_holes hf (congrArg (· ++ []) hs)).1]
    | _ => simp [form, map, bimap] at hf
  | methodDef d =>
    cases s' with
    | methodDef d' =>
      obtain ⟨⟨fl, as⟩, n, tps, gs, r, b⟩ := d
      obtain ⟨⟨fl', as'⟩, n', tps', gs', r', b'⟩ := d'
      simp only [slots, children, map_one_inj, MethodDef.children, MethodDef.params] at hs
      simp only [form, map, bimap, methodDef.injEq, MethodDef.bimap, Modifiers.map, List.map_id,
        MethodDef.mk.injEq, Modifiers.mk.injEq, and_true] at hf
      obtain ⟨⟨rfl, rfl⟩, rfl, rfl, hg, hr⟩ := hf
      obtain ⟨rfl, hs₁⟩ := groups_of_holes hg hs
      obtain ⟨rfl, hs₂⟩ := option_of_holes hr hs₁
      rw [List.singleton_inj.mp hs₂]
    | _ => simp [form, map, bimap] at hf
  | classDef d =>
    cases s' with
    | classDef d' =>
      obtain ⟨m, n, tps, ps, b⟩ := d
      obtain ⟨m', n', tps', ps', b'⟩ := d'
      simp only [form, classDef.injEq, ClassDef.mk.injEq, and_true] at hf
      obtain ⟨rfl, rfl, rfl, hp⟩ := hf
      obtain ⟨rfl, hb⟩ : ps = ps' ∧ b = b' := by
        have hs' := List.append_inj_right' hs rfl
        have hp' := List.append_inj_left' hs rfl
        simp only [List.cons.injEq, Slot.members.injEq, true_and, and_true] at hs'
        exact ⟨(values_of_holes hp (congrArg (· ++ []) (map_one_inj.mp hp'))).1, hs'⟩
      rw [hb]
    | _ => simp [form, map, bimap] at hf
  | objectDef d =>
    cases s' with
    | objectDef d' =>
      obtain ⟨m, n, b⟩ := d
      obtain ⟨m', n', b'⟩ := d'
      simp_all [form, slots]
    | _ => simp [form, map, bimap] at hf

/-! ## 3. A pass on members -/

namespace Rebuild

/-- The pass that handles lists of members by `f` and keeps everything else. -/
def onMembers {m : Type → Type}
    (f : Scope → List (Tree × m Tree) → m (List Tree) → m (List Tree)) : Rebuild m :=
  { members := f }

/-- What a pass makes of a slot whose trees come with their rebuilding. -/
def slot {m : Type → Type} [Monad m] (r : Rebuild m) : Slot (Tree × m Tree) → m (Slot Tree)
  | .one c => .one <$> c.2
  | .members scope cs => .members scope <$> r.memberList scope cs

end Rebuild

section

variable {m : Type → Type} [Monad m] [LawfulMonad m] {A B C F G H S : Type}

/-- What `x` yields has the form `f`, and its slots are what `r` yields. -/
private def Fills (parts : A → F × List S) (x : m A) (f : F) (r : m (List S)) : Prop :=
  parts <$> x = (f, ·) <$> r

private theorem Fills.leaf {p : A → F × List S} {a : A} {f : F} (h : p a = (f, [])) :
    Fills p (pure a : m A) f (pure []) := by
  simp [Fills, h]

/-- Two steps that fill a part each, one after the other, fill what is made of the parts. -/
private theorem Fills.seq {p : A → F × List S} {q : B → G × List S} {w : C → H × List S}
    {x : m A} {y : m B} {f : F} {g : G} {r r' : m (List S)} (hx : Fills p x f r)
    (hy : Fills q y g r') (mk : A → B → C) (h : F → G → H)
    (hc : ∀ a b, w (mk a b) = (h (p a).1 (q b).1, (p a).2 ++ (q b).2)) :
    Fills w (do let a ← x; let b ← y; return mk a b) (h f g)
      (do let l ← r; let l' ← r'; return l ++ l') := by
  have hmap : w <$> (do let a ← x; let b ← y; return mk a b) =
      (do let a ← p <$> x; let b ← q <$> y; return (h a.1 b.1, a.2 ++ b.2)) := by
    simp only [map_eq_pure_bind, bind_assoc, pure_bind, hc]
  rw [Fills, hmap, hx, hy]
  simp only [map_eq_pure_bind, bind_assoc, pure_bind]

/-- What a step fills, filled into something larger. -/
private theorem Fills.map {p : A → F × List S} {w : C → H × List S} {x : m A} {f : F}
    {r : m (List S)} (hx : Fills p x f r) (mk : A → C) (h : F → H)
    (hc : ∀ a, w (mk a) = (h (p a).1, (p a).2)) :
    Fills w (do let a ← x; return mk a) (h f) r := by
  have hmap : w <$> (do let a ← x; return mk a) =
      (fun a : F × List S => (h a.1, a.2)) <$> (p <$> x) := by
    simp only [map_eq_pure_bind, bind_assoc, pure_bind, hc]
  rw [Fills, hmap, hx]
  simp only [map_eq_pure_bind, bind_assoc, pure_bind]

variable (r : Rebuild m)

/-- A step that fills the part for `slots`. -/
private abbrev FillsSlots (parts : A → F × List (Slot Tree)) (x : m A) (f : F)
    (slots : List (Slot (Tree × m Tree))) : Prop :=
  Fills parts x f (slots.mapM r.slot)

variable {r}

private theorem FillsSlots.seq {p : A → F × List (Slot Tree)} {q : B → G × List (Slot Tree)}
    {w : C → H × List (Slot Tree)} {x : m A} {y : m B} {f : F} {g : G}
    {l l' : List (Slot (Tree × m Tree))} (hx : FillsSlots r p x f l) (hy : FillsSlots r q y g l')
    (mk : A → B → C) (h : F → G → H)
    (hc : ∀ a b, w (mk a b) = (h (p a).1 (q b).1, (p a).2 ++ (q b).2)) :
    FillsSlots r w (do let a ← x; let b ← y; return mk a b) (h f g) (l ++ l') := by
  rw [FillsSlots, List.mapM_append]
  exact Fills.seq hx hy mk h hc

private theorem fills_one (c : Tree × m Tree) :
    FillsSlots r (fun t => ((), [.one t])) c.2 () [.one c] := by
  simp [FillsSlots, Fills, Rebuild.slot]

/-- A loop fills the slots of its members one after the other. -/
private theorem fills_mapM {β : Type} {p : A → F × List (Slot Tree)} {f : β → m A} {fa : β → F}
    {sa : β → List (Slot (Tree × m Tree))} (h : ∀ b, FillsSlots r p (f b) (fa b) (sa b)) :
    ∀ bs : List β, FillsSlots r (fun as => (as.map (p · |>.1), as.flatMap (p · |>.2)))
      (bs.mapM f) (bs.map fa) (bs.flatMap sa)
  | [] => by simp [FillsSlots, Fills]
  | b :: bs => by
    simp only [List.mapM_cons, List.map_cons, List.flatMap_cons]
    exact FillsSlots.seq (h b) (fills_mapM h bs) List.cons List.cons fun _ _ => rfl

private theorem fills_trees (ts : List (Tree × m Tree)) :
    FillsSlots r (fun ts => (ts.map fun _ => (), ts.map .one)) (ts.mapM Prod.snd)
      (ts.map fun _ => ()) (ts.map .one) := by
  simpa [List.map_eq_flatMap] using fills_mapM fills_one ts

/-- What may be absent fills one slot or none. -/
private theorem fills_option (o : Option (Tree × m Tree)) :
    FillsSlots r (fun o => (o.map fun _ => (), o.toList.map .one)) (rebuildOption Prod.snd o)
      (o.map fun _ => ()) (o.toList.map .one) := by
  cases o <;> simp [FillsSlots, Fills, rebuildOption, Rebuild.slot]

private theorem fills_value (d : ValueDef Tree (Tree × m Tree)) :
    FillsSlots r (fun d => (d.bimap id fun _ => (), d.children.map .one)) (d.rebuild Prod.snd)
      (d.bimap id fun _ => ()) (d.children.map .one) := by
  rw [ValueDef.children, List.map_append]
  exact FillsSlots.seq
    (w := fun d : ValueDef Tree Tree => (d.bimap id fun _ => (), d.children.map .one))
    (fills_option d.tpe) (fills_option d.init)
    (fun tpe init => ⟨d.mods, d.name, tpe, init, d.span⟩)
    (fun tpe init => ⟨d.mods.map id, d.name, tpe, init, d.span⟩)
    fun _ _ => by simp [ValueDef.bimap, ValueDef.children]

private theorem fills_values (ps : List (ValueDef Tree (Tree × m Tree))) :
    FillsSlots r (fun ps => (ps.map (·.bimap id fun _ => ()),
        (ps.flatMap ValueDef.children).map .one))
      (ps.mapM (·.rebuild Prod.snd)) (ps.map (·.bimap id fun _ => ()))
      ((ps.flatMap ValueDef.children).map .one) := by
  simpa [List.map_flatMap] using fills_mapM fills_value ps

private theorem fills_groups (gs : List (List (ValueDef Tree (Tree × m Tree)))) :
    FillsSlots r (fun gs => (gs.map (·.map (·.bimap id fun _ => ())),
        (gs.flatten.flatMap ValueDef.children).map .one))
      (gs.mapM (·.mapM (·.rebuild Prod.snd))) (gs.map (·.map (·.bimap id fun _ => ())))
      ((gs.flatten.flatMap ValueDef.children).map .one) := by
  have hflat : ∀ {β : Type} (gs : List (List (ValueDef Tree β))),
      gs.flatten.flatMap ValueDef.children = gs.flatMap (·.flatMap ValueDef.children) := by
    simp [← List.flatMap_id', List.flatMap_assoc]
  simp only [hflat, List.map_flatMap]
  simpa [List.map_flatMap] using fills_mapM fills_values gs

/-- A method fills the slots of its parameters, its result and its body, in this order. -/
private theorem fills_method (d : MethodDef Tree (Tree × m Tree)) :
    FillsSlots r (fun d => (d.bimap id fun _ => (), d.children.map .one))
      (d.rebuild (·.rebuild Prod.snd) Prod.snd) (d.bimap id fun _ => ())
      (d.children.map .one) := by
  have hrest := FillsSlots.seq
    (w := fun e : Option Tree × Tree => (e.1.map fun _ => (), e.1.toList.map .one ++ [.one e.2]))
    (fills_option d.result) (fills_one (r := r) d.body) Prod.mk (fun result _ => result)
    fun _ _ => rfl
  have hall := FillsSlots.seq
    (w := fun d : MethodDef Tree Tree => (d.bimap id fun _ => (), d.children.map .one))
    (fills_groups d.groups) hrest
    (fun groups e => ⟨d.mods, d.name, d.tparams, groups, e.1, e.2⟩)
    (fun groups result => ⟨d.mods.map id, d.name, d.tparams, groups, result, ()⟩)
    fun _ _ => by simp [MethodDef.bimap, MethodDef.children, MethodDef.params]
  simpa [MethodDef.rebuild, MethodDef.children, MethodDef.params, MethodDef.bimap] using hall

private theorem fills_arm (a : Arm (Tree × m Tree)) :
    FillsSlots r (fun a => (a.map fun _ => (), a.children.map .one)) (a.rebuild Prod.snd)
      (a.map fun _ => ()) (a.children.map .one) := by
  have hrest := FillsSlots.seq
    (w := fun e : Option Tree × Tree => (e.1.map fun _ => (), e.1.toList.map .one ++ [.one e.2]))
    (fills_option a.guard) (fills_one (r := r) a.body) Prod.mk (fun guard _ => guard)
    fun _ _ => rfl
  have hall := FillsSlots.seq
    (w := fun a : Arm Tree => (a.map fun _ => (), a.children.map .one))
    (fills_one a.pat) hrest (fun pat e => ⟨pat, e.1, e.2⟩) (fun _ guard => ⟨(), guard, ()⟩)
    fun _ _ => by simp [Arm.map, Arm.children]
  simpa [Arm.rebuild, Arm.children, Arm.map] using hall

private theorem fills_arms (as : List (Arm (Tree × m Tree))) :
    FillsSlots r (fun as => (as.map (·.map fun _ => ()), (as.flatMap Arm.children).map .one))
      (as.mapM (·.rebuild Prod.snd)) (as.map (·.map fun _ => ()))
      ((as.flatMap Arm.children).map .one) := by
  simpa [List.map_flatMap] using fills_mapM fills_arm as

/-- A list of members is one slot: it is handed over whole. -/
private theorem fills_members (scope : Scope) (ts : List (Tree × m Tree)) :
    FillsSlots r (fun ts => ((), [.members scope ts])) (r.memberList scope ts) ()
      [.members scope ts] := by
  simp [FillsSlots, Fills, Rebuild.slot]

/-- **A pass on members keeps the form of a layer and handles its slots in order.** -/
theorem Rebuild.parts_layer (f : Scope → List (Tree × m Tree) → m (List Tree) → m (List Tree))
    (s : Shape Tree (Tree × m Tree)) :
    (fun s' => (s'.form, s'.slots)) <$> (onMembers f).layer s =
      (s.form, ·) <$> s.slots.mapM (onMembers f).slot := by
  let parts : Shape Tree Tree → Shape Tree Unit × List (Slot Tree) := fun s => (s.form, s.slots)
  change FillsSlots (onMembers f) parts _ _ _
  cases s with
  | ident | typeIdent | literal | wildcard | tag => exact Fills.leaf rfl
  | select t n =>
    exact Fills.map (fills_one t) (Shape.select · n) (Shape.select · n) fun _ => rfl
  | new t => exact Fills.map (fills_one t) Shape.new Shape.new fun _ => rfl
  | bind n t => exact Fills.map (fills_one t) (Shape.bind n) (Shape.bind n) fun _ => rfl
  | quote t => exact Fills.map (fills_one t) Shape.quote Shape.quote fun _ => rfl
  | splice t => exact Fills.map (fills_one t) Shape.splice Shape.splice fun _ => rfl
  | apply t args =>
    exact FillsSlots.seq (fills_one t) (fills_trees args) Shape.apply Shape.apply fun _ _ => rfl
  | typeApply t args =>
    exact FillsSlots.seq (fills_one t) (fills_trees args) Shape.typeApply Shape.typeApply
      fun _ _ => rfl
  | appliedType t args =>
    exact FillsSlots.seq (fills_one t) (fills_trees args) Shape.appliedType Shape.appliedType
      fun _ _ => rfl
  | block stats t =>
    exact FillsSlots.seq (fills_members .enclosed stats) (fills_one t) Shape.block
      (fun _ => Shape.block []) fun _ _ => rfl
  | matchOn t arms =>
    exact FillsSlots.seq (fills_one t) (fills_arms arms) Shape.matchOn Shape.matchOn
      fun _ _ => rfl
  | lambda ps t =>
    have hs : (Shape.lambda ps t).slots = (ps.flatMap ValueDef.children).map .one ++ [.one t] := by
      simp [Shape.slots, Shape.children]
    rw [hs]
    exact FillsSlots.seq (fills_values ps) (fills_one t) Shape.lambda Shape.lambda fun _ _ => by
      simp [parts, Shape.form, Shape.slots, Shape.children, Shape.map, Shape.bimap]
  | valueDef d => exact Fills.map (fills_value d) Shape.valueDef Shape.valueDef fun _ => rfl
  | methodDef d => exact Fills.map (fills_method d) Shape.methodDef Shape.methodDef fun _ => rfl
  | classDef d =>
    exact FillsSlots.seq (fills_values d.params) (fills_members .enclosed d.body)
      (fun params body => Shape.classDef { d with params, body })
      (fun params _ => Shape.classDef { d with params, body := [] }) fun _ _ => rfl
  | objectDef d =>
    exact Fills.map (fills_members .container d.body)
      (fun body => Shape.objectDef { d with body })
      (fun _ => Shape.objectDef { d with body := [] }) fun _ => rfl
  | package n stats =>
    exact Fills.map (fills_members .container stats) (Shape.package n)
      (fun _ => Shape.package n []) fun _ => rfl

/-! ## 4. All layers -/

namespace Tree

/-- The form of the root of a tree, with the span and the attached type that go with it. -/
def outline (t : Tree) : Shape Tree Unit × Span × Option Name := (t.shape.form, t.span, t.ty)

/-- The slots of the root of a tree. -/
def slots (t : Tree) : List (Slot Tree) := t.shape.slots

/-- A tree is given by its outline and its slots. -/
theorem eq_of_outline {t u : Tree} (ho : t.outline = u.outline) (hs : t.slots = u.slots) :
    t = u := by
  obtain ⟨s, sp, ty⟩ := t
  obtain ⟨s', sp', ty'⟩ := u
  simp only [outline, Prod.mk.injEq] at ho
  obtain ⟨hf, rfl, rfl⟩ := ho
  rw [Shape.eq_of_parts hf hs]

/-- The code in a tree is what stands in its slots. -/
theorem mem_children_iff {t c : Tree} : c ∈ t.shape.children ↔ ∃ l ∈ t.slots, c ∈ l.children := by
  rw [Shape.children_eq_slots, List.mem_flatMap]
  rfl

/-- What a pass on members makes of a slot. -/
def rebuildSlot (f : Scope → List (Tree × m Tree) → m (List Tree) → m (List Tree)) :
    Slot Tree → m (Slot Tree) :=
  fun l => (Rebuild.onMembers f).slot (l.map fun c => (c, c.rebuild (.onMembers f)))

/-- **A pass on members keeps the outline of a tree and handles its slots in order.** -/
theorem outline_rebuild (f : Scope → List (Tree × m Tree) → m (List Tree) → m (List Tree))
    (t : Tree) :
    (fun u => (u.outline, u.slots)) <$> t.rebuild (.onMembers f) =
      (t.outline, ·) <$> t.slots.mapM (rebuildSlot f) := by
  let layer := t.shape.map fun c => (c, c.rebuild (.onMembers f))
  have hparts := Rebuild.parts_layer f layer
  rw [Shape.form_map, Shape.slots_map, List.mapM_map] at hparts
  calc (fun u => (u.outline, u.slots)) <$> t.rebuild (.onMembers f)
      = (fun e : _ × _ => ((e.1, t.span, t.ty), e.2)) <$>
          ((fun s => (s.form, s.slots)) <$> (Rebuild.onMembers f).layer layer) := by
        rw [rebuild_eq]
        change (fun u : Tree => (u.outline, u.slots)) <$> (do
          let s ← (Rebuild.onMembers f).layer layer
          return ⟨s, t.span, t.ty⟩) = _
        simp only [map_eq_pure_bind, bind_assoc, pure_bind]
        rfl
    _ = (t.outline, ·) <$> t.slots.mapM (rebuildSlot f) := by
        rw [hparts]
        simp only [map_eq_pure_bind, bind_assoc, pure_bind]
        rfl

end Tree

end

end Enrich
