import Enrich.Proofs.Bindings
import Enrich.Proofs.Scopes
import Enrich.Tree.Sites
/-!
# What makes splicing right

Splicing wraps every reference to a reserved name, whatever is declared around it.  What it stands
in for knows about scopes: it goes down the tree with the names that are bound around, and wraps a
reference to a reserved name only if the name is not among them (`Tree.spliceFree`).

The two do the same to a body that declares no reserved name, for a name that is bound at some place
of the body is declared somewhere in the body (`Tree.exists_binding_of_visible`).  So all depends on
finding the declarations, and they are found exactly: one for each site that declares a reserved
name, in reading order.

* `Tree.bindings_eq_filterMap`: the declarations of a tree are those of its sites.
* `Tree.at?_spliceFree`: what becomes of a reference whose scope is known.
* `guards_splicing`: the main statement.
-/

namespace Enrich

variable {α β γ : Type}

/-! ## 1. The sites that declare -/

namespace Site

/-- The declaration that a site makes.  A method is declared by the tree that it is the root of. -/
def binding? : Site → Option Binding
  | .tree t =>
    match t.shape with
    | .methodDef d => some ⟨d.name, .method, t.span⟩
    | .objectDef d => some ⟨d.name, .object, t.span⟩
    | .bind n _ => some ⟨n, .pattern, t.span⟩
    | _ => none
  | .value d => some ⟨d.name, .value, d.span⟩
  | .method _ => none

/-- The declaration that a site makes, if it takes a reserved name. -/
def redeclaration? (r : ReservedNames) (s : Site) : Option Binding :=
  s.binding?.filter fun b => r.contains b.name

end Site

theorem ValueDef.bindings_eq_filterMap {inside : Tree → List Binding} {d : ValueDef Tree Tree}
    (h : ∀ c ∈ d.children, inside c = c.sites.filterMap Site.binding?) :
    d.bindings inside = (d.sites id Tree.sites).filterMap Site.binding? := by
  rw [bindings, sites, List.filterMap_cons, List.filterMap_flatMap, List.flatMap_congr h]
  rfl

theorem ValueDef.flatMap_bindings_eq_filterMap {inside : Tree → List Binding}
    (ps : List (ValueDef Tree Tree))
    (h : ∀ c ∈ ps.flatMap children, inside c = c.sites.filterMap Site.binding?) :
    ps.flatMap (·.bindings inside) =
      (ps.flatMap (·.sites id Tree.sites)).filterMap Site.binding? := by
  rw [List.filterMap_flatMap]
  refine List.flatMap_congr fun p hp => bindings_eq_filterMap fun c hc => ?_
  exact h c (List.mem_flatMap.mpr ⟨p, hp, hc⟩)

/-- **The declarations of a tree are those of its sites**, each once and in reading order. -/
theorem Tree.bindings_eq_filterMap (t : Tree) : t.bindings = t.sites.filterMap Site.binding? := by
  induction t using induction with
  | step t _ ih =>
    have htrees : ∀ cs : List Tree, (∀ c ∈ cs, c ∈ t.shape.children) →
        cs.flatMap bindings = (cs.flatMap sites).filterMap Site.binding? := by
      intro cs hcs
      rw [List.filterMap_flatMap]
      exact List.flatMap_congr fun c hc => ih c (hcs c hc)
    have hchildren := htrees t.shape.children fun _ hc => hc
    obtain ⟨s, sp, ty⟩ := t
    rw [bindings_eq, sites_eq, List.filterMap_cons]
    cases s with
    | lambda ps b =>
      have hps := ValueDef.flatMap_bindings_eq_filterMap ps fun c hc =>
        ih c (List.mem_append_left _ hc)
      have hb := ih b (List.mem_append_right _ (List.mem_singleton_self b))
      simp only [Shape.bindings, Shape.sites, List.filterMap_append, Site.binding?, hps, hb]
    | valueDef d => exact ValueDef.bindings_eq_filterMap ih
    | methodDef d =>
      have hps := ValueDef.flatMap_bindings_eq_filterMap d.params fun c hc =>
        ih c (List.mem_append_left _ hc)
      have hrest := htrees (d.result.toList ++ [d.body]) fun c hc => List.mem_append_right _ hc
      simp only [Shape.bindings, Shape.sites, MethodDef.sites, List.filterMap_append,
        List.filterMap_cons, Site.binding?, hps, ← hrest]
      simp
    | classDef d =>
      have hps := ValueDef.flatMap_bindings_eq_filterMap d.params fun c hc =>
        ih c (List.mem_append_left _ hc)
      have hbody := htrees d.body fun c hc => List.mem_append_right _ hc
      simp only [Shape.bindings, Shape.sites, List.filterMap_append, Site.binding?, hps, hbody]
    | objectDef d => exact congrArg (_ :: ·) hchildren
    | bind n p =>
      have hp := ih p (List.mem_singleton_self p)
      simp [Shape.bindings, Shape.sites, Shape.children, Site.binding?, hp]
    | _ => exact hchildren

/-- **Each site that declares a reserved name is found once**, in reading order. -/
theorem Tree.redeclarations_eq_filterMap (r : ReservedNames) (t : Tree) :
    t.redeclarations r = t.sites.filterMap (Site.redeclaration? r) := by
  rw [redeclarations, bindings_eq_filterMap, List.filter_filterMap]
  rfl

/-! ## 2. Layers with the names that are visible -/

/-- The layer with the names that it makes visible at each of its holes. -/
def Shape.withVisible (rule : Visibility) (declared patternNames : β → List Name) :
    Shape α β → Shape α (List Name × β)
  | .block stats r =>
    .block (stats.zipIdx.map fun c => (rule.seenAt declared stats c.2, c.1))
      (stats.flatMap declared, r)
  | .matchOn t arms =>
    .matchOn ([], t) (arms.map fun a =>
      let names := patternNames a.pat
      { pat := ([], a.pat), guard := a.guard.map (names, ·), body := (names, a.body) })
  | .lambda ps b =>
    let names := ps.map ValueDef.name
    .lambda (ps.map (·.bimap id (names, ·))) (names, b)
  | .methodDef d =>
    let names := d.name :: d.params.map ValueDef.name
    .methodDef (d.bimap id (names, ·))
  | .classDef d =>
    let params := d.params.map ValueDef.name
    .classDef
      { d with params := d.params.map (·.bimap id (params, ·))
               body := d.body.map (params ++ d.body.flatMap declared, ·) }
  | .objectDef d =>
    .objectDef { d with body := d.body.map (d.name :: d.body.flatMap declared, ·) }
  | .package n stats => .package n (stats.map (stats.flatMap declared, ·))
  | s => s.map ([], ·)

section

variable (rule : Visibility) (declared patternNames : β → List Name)

/-- Nothing but names is added to a layer. -/
theorem Shape.map_snd_withVisible (s : Shape α β) :
    (s.withVisible rule declared patternNames).map Prod.snd = s := by
  have hparams : ∀ (ps : List (ValueDef α β)) (names : List Name),
      (ps.map (·.bimap id (names, ·))).map (·.bimap id Prod.snd) = ps := by
    intro ps names
    rw [List.map_map]
    refine (List.map_congr_left fun p _ => ?_).trans (List.map_id ps)
    exact (p.bimap_bimap _ _ _ _).trans p.bimap_id
  cases s with
  | methodDef d => exact congrArg methodDef ((d.bimap_bimap _ _ _ _).trans d.bimap_id)
  | lambda ps b => simp only [withVisible, map, bimap, hparams]
  | classDef d =>
    simp only [withVisible, map, bimap, ClassDef.bimap, hparams]
    simp [Modifiers.map, Function.comp_def]
  | _ =>
    simp [withVisible, map, bimap, ObjectDef.bimap, ValueDef.bimap, Arm.map, Modifiers.map,
      Function.comp_def]

/-- The names at each hole are those that are visible there. -/
theorem Shape.children_withVisible (s : Shape α β) :
    (s.withVisible rule declared patternNames).children =
      (s.visible rule declared patternNames).map (Prod.map (List.map Prod.fst) id) := by
  have harms : ∀ (arms : List (Arm β)) start,
      (arms.map fun a => (⟨([], a.pat), a.guard.map (patternNames a.pat, ·),
          (patternNames a.pat, a.body)⟩ : Arm (List Name × β))).flatMap Arm.children =
        (visibleInArms patternNames start arms).map (Prod.map (List.map Prod.fst) id) := by
    intro arms
    induction arms with
    | nil => intro start; rfl
    | cons a as ih =>
      intro start
      rw [List.map_cons, List.flatMap_cons, ih (start + (patternNames a.pat).length)]
      cases hg : a.guard <;> simp [visibleInArms, Arm.children, hg]
  cases s with
  | block stats r => simp [withVisible, visible, children]
  | matchOn t arms => simp [withVisible, visible, children, harms arms 0]
  | lambda ps b =>
    simp [withVisible, visible, children, ValueDef.flatMap_children_bimap]
  | methodDef d =>
    simp [withVisible, visible, children, MethodDef.children_bimap]
  | classDef d =>
    simp [withVisible, visible, children, ClassDef.children, ValueDef.flatMap_children_bimap,
      Function.comp_def]
  | objectDef d => simp [withVisible, visible, children]
  | package n stats => simp [withVisible, visible, children]
  | valueDef d => simp [withVisible, visible, map, bimap, children, ValueDef.children_bimap]
  | _ => simp [withVisible, visible, map, bimap, children]

end

/-- **Names that are not changed are visible where they were.** -/
theorem Shape.withVisible_map (rule : Visibility) (declared patternNames : γ → List Name)
    (f : β → γ) (s : Shape α β) :
    (s.map f).withVisible rule declared patternNames =
      (s.withVisible rule (declared ∘ f) (patternNames ∘ f)).map (Prod.map id f) := by
  cases s with
  | block stats r =>
    simp [map, bimap, withVisible, Visibility.seenAt_map, List.zipIdx_map, List.flatMap_map,
      Function.comp_def]
  | lambda ps b =>
    simp only [map, bimap, withVisible, ValueDef.map_name_bimap]
    simp [Function.comp_def]
  | methodDef d =>
    simp only [map, bimap, withVisible, MethodDef.params_bimap, ValueDef.map_name_bimap]
    simp [MethodDef.bimap, Function.comp_def]
  | classDef d =>
    simp only [map, bimap, withVisible, ClassDef.bimap, ValueDef.map_name_bimap]
    simp [List.flatMap_map, Function.comp_def]
  | _ =>
    simp [map, bimap, withVisible, ObjectDef.bimap, ValueDef.bimap, Arm.map, List.flatMap_map,
      Function.comp_def]

theorem Visibility.mem_of_seenAt {rule : Visibility} {declared : β → List Name} {stats : List β}
    {k : Nat} {n : Name} (h : n ∈ rule.seenAt declared stats k) :
    ∃ c ∈ stats, n ∈ declared c := by
  cases rule with
  | later =>
    obtain ⟨c, hc, hn⟩ := List.mem_flatMap.mp h
    exact ⟨c, List.mem_of_mem_take hc, hn⟩
  | everywhere => exact List.mem_flatMap.mp h

theorem mem_of_visibleInArms {patternNames : β → List Name} {arms : List (Arm β)} {start : Nat}
    {names : List (Name × Nat)} {c : β} {n : Name × Nat}
    (hc : (names, c) ∈ visibleInArms patternNames start arms) (hn : n ∈ names) :
    ∃ a ∈ arms, n.1 ∈ patternNames a.pat := by
  induction arms generalizing start with
  | nil => exact absurd hc List.not_mem_nil
  | cons a as ih =>
    rw [visibleInArms, List.mem_append, List.mem_cons, List.mem_map] at hc
    rcases hc with (hc | ⟨b, -, hc⟩) | hc
    · cases hc
      exact absurd hn List.not_mem_nil
    · cases hc
      exact ⟨a, List.mem_cons_self, List.fst_mem_of_mem_zipIdx hn⟩
    · obtain ⟨a', ha', hn⟩ := ih hc
      exact ⟨a', List.mem_cons_of_mem _ ha', hn⟩

/-- A name that is visible at a hole is declared by the layer, or by what stands at a hole. -/
theorem Shape.mem_of_visible {rule : Visibility} {declared patternNames : β → List Name}
    {s : Shape α β} {names : List (Name × Nat)} {c : β} {n : Name × Nat} (span : Span)
    (hc : (names, c) ∈ s.visible rule declared patternNames) (hn : n ∈ names) :
    (∃ b ∈ s.binders span, b.name = n.1) ∨
      ∃ c ∈ s.children, n.1 ∈ declared c ∨ n.1 ∈ patternNames c := by
  have hnames : ∀ {shown : List (Name × Nat)} {cs : List β},
      (names, c) ∈ cs.map (shown, ·) → n.1 ∈ shown.map Prod.fst := by
    intro shown cs h
    obtain ⟨_, _, heq⟩ := List.mem_map.mp h
    exact List.mem_map_of_mem ((Prod.mk.inj heq).1 ▸ hn)
  have hparams : ∀ ps : List (ValueDef α β), n.1 ∈ ps.map ValueDef.name →
      ∃ b ∈ ps.map (fun p => (⟨p.name, .value, p.span⟩ : Binding)), b.name = n.1 := by
    intro ps hps
    obtain ⟨p, hp, hname⟩ := List.mem_map.mp hps
    exact ⟨_, List.mem_map_of_mem hp, hname⟩
  have hmembers : ∀ ms : List β, n.1 ∈ ms.flatMap declared → (∀ m ∈ ms, m ∈ s.children) →
      ∃ c ∈ s.children, n.1 ∈ declared c ∨ n.1 ∈ patternNames c := by
    intro ms hms hsub
    obtain ⟨m, hm, hn⟩ := List.mem_flatMap.mp hms
    exact ⟨m, hsub m hm, .inl hn⟩
  -- a layer binds its parameters itself; a statement, a member or a pattern stands at a hole
  cases s with
  | block stats r =>
    have hsub : ∀ m ∈ stats, m ∈ (Shape.block stats r : Shape α β).children := fun m hm =>
      List.mem_append_left _ hm
    rw [visible, List.mem_append, List.mem_map, List.mem_singleton] at hc
    rcases hc with ⟨k, -, hc⟩ | hc
    · cases hc
      obtain ⟨m, hm, hn⟩ := Visibility.mem_of_seenAt (List.fst_mem_of_mem_zipIdx hn)
      exact .inr ⟨m, hsub m hm, .inl hn⟩
    · cases hc
      exact .inr (hmembers stats (List.fst_mem_of_mem_zipIdx hn) hsub)
  | matchOn t arms =>
    rcases List.mem_cons.mp hc with hc | hc
    · cases hc
      exact absurd hn List.not_mem_nil
    · obtain ⟨a, ha, hn⟩ := mem_of_visibleInArms hc hn
      refine .inr ⟨a.pat, List.mem_cons_of_mem _ (List.mem_flatMap.mpr ⟨a, ha, ?_⟩), .inr hn⟩
      exact List.mem_cons_self
  | lambda ps b =>
    have h := hnames hc
    rw [List.zipIdx_map_fst] at h
    exact .inl (hparams ps h)
  | methodDef d =>
    have h := hnames hc
    rw [List.zipIdx_map_fst] at h
    rcases List.mem_cons.mp h with h | h
    · exact .inl ⟨_, List.mem_cons_self, h.symm⟩
    · obtain ⟨b, hb, hname⟩ := hparams d.params h
      exact .inl ⟨b, List.mem_cons_of_mem _ hb, hname⟩
  | classDef d =>
    rcases List.mem_append.mp hc with hc | hc
    · have h := hnames hc
      rw [List.zipIdx_map_fst] at h
      exact .inl (hparams d.params h)
    · have h := hnames hc
      rw [List.zipIdx_map_fst, List.mem_append] at h
      rcases h with h | h
      · exact .inl (hparams d.params h)
      · exact .inr (hmembers d.body h fun m hm => List.mem_append_right _ hm)
  | objectDef d =>
    have h := hnames hc
    rw [List.zipIdx_map_fst] at h
    rcases List.mem_cons.mp h with h | h
    · exact .inl ⟨_, List.mem_singleton_self _, h.symm⟩
    · exact .inr (hmembers d.body h fun m hm => hm)
  | package n' stats =>
    have h := hnames hc
    rw [List.zipIdx_map_fst] at h
    exact .inr (hmembers stats h fun m hm => hm)
  | _ => exact absurd (hnames hc) List.not_mem_nil

/-! ## 3. Declarations in scope -/

namespace NameScope

theorem map_fst_under (route : List Nat) (scope : NameScope) :
    (scope.under route).map Prod.fst = scope.map Prod.fst := by
  simp [under, Function.comp_def]

theorem map_fst_ofNames (names : List (Name × Nat)) :
    (ofNames names).map Prod.fst = (names.map Prod.fst).reverse := by
  simp [ofNames, Function.comp_def]

/-- A name refers to nothing in a scope exactly if it is not there. -/
theorem lookup_eq_none_iff {scope : NameScope} {n : Name} :
    scope.lookup n = none ↔ n ∉ scope.map Prod.fst := by
  rw [List.lookup_eq_none_iff, List.mem_map, not_exists]
  refine forall_congr' fun p => ?_
  rw [not_and, bne_iff_ne, ne_comm]

end NameScope

namespace Tree

theorem exists_binding_of_declared {t : Tree} {n : Name} (h : n ∈ t.declared) :
    ∃ b ∈ t.bindings, b.name = n := by
  have hroot : ∃ b ∈ t.binders, b.name = n := by
    unfold declared at h
    unfold binders
    split at h <;> rename_i hs <;> simp_all [Shape.binders]
  obtain ⟨b, hb, hname⟩ := hroot
  exact ⟨b, mem_bindings_iff.mpr (.inl hb), hname⟩

theorem exists_binding_of_patternNames {t : Tree} {n : Name} (h : n ∈ t.patternNames) :
    ∃ b ∈ t.bindings, b.name = n := by
  induction t using induction with
  | step t _ ih =>
    rw [patternNames_eq, List.mem_append, Option.mem_toList, List.mem_flatMap] at h
    rcases h with h | ⟨c, hc, h⟩
    · unfold patternName? at h
      split at h
      · rename_i n' p hs
        refine ⟨⟨n', .pattern, t.span⟩, mem_bindings_iff.mpr (.inl ?_), Option.some.inj h⟩
        rw [binders, hs]
        exact List.mem_singleton_self _
      · contradiction
    · obtain ⟨b, hb, hname⟩ := ih c hc h
      exact ⟨b, mem_bindings_iff.mpr (.inr ⟨c, hc, hb⟩), hname⟩

/-- **What is visible in a child of a tree is declared in the tree.** -/
theorem exists_binding_of_visible {rule : Visibility} {t c : Tree} {names : List (Name × Nat)}
    {n : Name × Nat} (hc : (names, c) ∈ t.visible rule) (hn : n ∈ names) :
    ∃ b ∈ t.bindings, b.name = n.1 := by
  rcases Shape.mem_of_visible t.span hc hn with ⟨b, hb, hname⟩ | ⟨u, hu, h⟩
  · exact ⟨b, mem_bindings_iff.mpr (.inl hb), hname⟩
  · obtain ⟨b, hb, hname⟩ := h.elim exists_binding_of_declared exists_binding_of_patternNames
    exact ⟨b, mem_bindings_iff.mpr (.inr ⟨u, hu, hb⟩), hname⟩

/-! ## 4. Splicing with an eye on scopes -/

/-- Splices the references to reserved names that no declaration in scope binds.  The names `bound`
are those bound around the tree. -/
def spliceFree (rule : Visibility) (r : ReservedNames) : Tree → List Name → Tree :=
  fold fun t s bound =>
    match t.reference? with
    | some n => if r.contains n && !bound.contains n then splice t t.span else t
    | none =>
      let layer := s.withVisible rule (declared ∘ Prod.fst) (patternNames ∘ Prod.fst)
      ⟨layer.map fun c => c.2.2 (c.1 ++ bound), t.span, t.ty⟩

section

variable {rule : Visibility} {r : ReservedNames} {t : Tree} {bound : List Name}

theorem spliceFree_of_reference {n : Name} (h : t.reference? = some n) :
    t.spliceFree rule r bound =
      if r.contains n && !bound.contains n then splice t t.span else t := by
  rw [spliceFree, fold_eq, h]

/-- In a child, the names that are visible there are bound as well. -/
theorem spliceFree_of_not_reference (h : t.reference? = none) :
    t.spliceFree rule r bound =
      ⟨(t.shape.withVisible rule declared patternNames).map fun c =>
        c.2.spliceFree rule r (c.1 ++ bound), t.span, t.ty⟩ := by
  rw [spliceFree, fold_eq, h]
  simp only
  rw [Shape.withVisible_map, Shape.map, Shape.map, Shape.bimap_bimap]
  rfl

theorem spliceReserved_of_not_reference (h : t.reference? = none) :
    t.spliceReserved r = ⟨t.shape.map (spliceReserved r), t.span, t.ty⟩ := by
  refine spliceReserved_of_not_ident fun n hn => ?_
  rw [reference?_eq_some_iff.mpr hn] at h
  contradiction

/-- **Where no reserved name is declared, around the tree or in it, splicing is right.** -/
theorem spliceFree_eq_spliceReserved (hbound : ∀ n ∈ bound, r.contains n = false)
    (hinside : ∀ b ∈ t.bindings, r.contains b.name = false) :
    t.spliceFree rule r bound = t.spliceReserved r := by
  induction t using induction generalizing bound with
  | step t _ ih =>
    cases href : t.reference? with
    | some n =>
      have hs := reference?_eq_some_iff.mp href
      rw [spliceFree_of_reference href]
      cases hr : r.contains n with
      | true =>
        have hn : n ∉ bound := fun hn => by simp [hbound n hn] at hr
        rw [spliceReserved_of_ident hs hr]
        simp [hn]
      | false =>
        have hnone : t.reservedSplice? r = none := by simp [reservedSplice?, hs, hr]
        rw [spliceReserved, replace_of_reference href hnone]
        rfl
    | none =>
      rw [spliceFree_of_not_reference href, spliceReserved_of_not_reference href]
      -- seen as a splicing that ignores the names it is given, to be compared hole by hole
      have hshape : t.shape.map (spliceReserved r) =
          (t.shape.withVisible rule declared patternNames).map (spliceReserved r ∘ Prod.snd) := by
        conv_lhs => rw [← Shape.map_snd_withVisible rule declared patternNames t.shape]
        rw [Shape.map, Shape.map, Shape.bimap_bimap]
        rfl
      rw [hshape]
      congr 1
      refine Shape.bimap_congr (fun _ _ => rfl) fun c hc => ?_
      rw [Shape.children_withVisible] at hc
      obtain ⟨⟨names, u⟩, hu, rfl⟩ := List.mem_map.mp hc
      have hchild : u ∈ t.shape.children := by
        rw [← Shape.map_snd_visible rule declared patternNames]
        exact List.mem_map_of_mem hu
      refine ih u hchild ?_ fun b hb => hinside b (mem_bindings_iff.mpr (.inr ⟨u, hchild, hb⟩))
      intro n hn
      rcases List.mem_append.mp hn with hn | hn
      · obtain ⟨m, hm, rfl⟩ := List.mem_map.mp hn
        obtain ⟨b, hb, hname⟩ := exists_binding_of_visible hu hm
        exact hname ▸ hinside b hb
      · exact hbound n hn

/-- What a root declares is the same whatever its holes are filled with. -/
theorem declared_map {s : Shape Tree β} (f g : β → Tree) (sp sp' : Span) (ty ty' : Option Name) :
    declared ⟨s.map f, sp, ty⟩ = declared ⟨s.map g, sp', ty'⟩ := by
  cases s <;> rfl

theorem patternName?_map {s : Shape Tree β} (f g : β → Tree) (sp sp' : Span)
    (ty ty' : Option Name) : patternName? ⟨s.map f, sp, ty⟩ = patternName? ⟨s.map g, sp', ty'⟩ := by
  cases s <;> rfl

theorem eta_withVisible (rule : Visibility) (t : Tree) :
    (⟨(t.shape.withVisible rule declared patternNames).map Prod.snd, t.span, t.ty⟩ : Tree) = t := by
  rw [Shape.map_snd_withVisible, eta]

theorem declared_spliceFree : (t.spliceFree rule r bound).declared = t.declared := by
  cases href : t.reference? with
  | some n =>
    have hs := reference?_eq_some_iff.mp href
    rw [spliceFree_of_reference href]
    split
    · simp [splice, ofShape, declared, hs]
    · rfl
  | none =>
    rw [spliceFree_of_not_reference href]
    conv_rhs => rw [← eta_withVisible rule t]
    exact declared_map _ _ _ _ _ _

theorem patternNames_spliceFree : (t.spliceFree rule r bound).patternNames = t.patternNames := by
  induction t using induction generalizing bound with
  | step t _ ih =>
    cases href : t.reference? with
    | some n =>
      rw [spliceFree_of_reference href]
      split
      · rw [patternNames_eq]
        simp [splice, ofShape, patternName?, Shape.children]
      · rfl
    | none =>
      rw [spliceFree_of_not_reference href]
      conv_rhs => rw [← eta_withVisible rule t]
      rw [patternNames_eq, patternNames_eq ⟨_, t.span, t.ty⟩]
      congr 1
      · exact congrArg _ (patternName?_map _ _ _ _ _ _)
      · simp only [Shape.map, Shape.children_bimap, List.flatMap_map]
        refine List.flatMap_congr fun c hc => ih c.2 ?_
        conv => rw [← Shape.map_snd_withVisible rule declared patternNames t.shape]
        rw [Shape.map, Shape.children_bimap]
        exact List.mem_map_of_mem hc

/-- Splicing below a root keeps what the root makes visible. -/
theorem getElem?_visible_spliceFree {k : Nat} {names : List (Name × Nat)} {c : Tree}
    (hk : (t.visible rule)[k]? = some (names, c)) :
    ((t.spliceFree rule r bound).visible rule)[k]? =
      some (names, c.spliceFree rule r (names.map Prod.fst ++ bound)) := by
  cases href : t.reference? with
  | some n =>
    rw [visible, reference?_eq_some_iff.mp href] at hk
    simp [Shape.visible, Shape.children] at hk
  | none =>
    let layer := t.shape.withVisible rule declared patternNames
    let holes := layer.visible rule (declared ∘ Prod.snd) (patternNames ∘ Prod.snd)
    let spliced : List Name × Tree → Tree := fun x => x.2.spliceFree rule r (x.1 ++ bound)
    -- the holes of the layer, each with what is visible there, and also with the names alone
    obtain ⟨x, hx, hnames⟩ : ∃ x, holes[k]? = some x ∧ Prod.map id Prod.snd x = (names, c) := by
      have hsource : holes.map (Prod.map id Prod.snd) = t.visible rule := by
        rw [← Shape.visible_map, Shape.map_snd_withVisible]
        rfl
      rw [← hsource, List.getElem?_map] at hk
      exact Option.map_eq_some_iff.mp hk
    have hhole : x.2 = (names.map Prod.fst, c) := by
      have hchildren : holes.map Prod.snd =
          (t.visible rule).map (Prod.map (List.map Prod.fst) id) := by
        rw [Shape.map_snd_visible]
        exact Shape.children_withVisible rule declared patternNames t.shape
      have hat := congrArg (·[k]?) hchildren
      simp only [List.getElem?_map, hx, hk, Option.map_some] at hat
      exact Option.some.inj hat
    have hdeclared : declared ∘ spliced = declared ∘ Prod.snd := funext fun _ => declared_spliceFree
    have hpattern : patternNames ∘ spliced = patternNames ∘ Prod.snd :=
      funext fun _ => patternNames_spliceFree
    rw [spliceFree_of_not_reference href, visible]
    change ((layer.map spliced).visible rule declared patternNames)[k]? = _
    rw [Shape.visible_map, hdeclared, hpattern, List.getElem?_map, hx, Option.map_some,
      ← (Prod.mk.inj hnames).1]
    change some (x.1, spliced x.2) = _
    rw [hhole, (Prod.mk.inj hnames).1.symm]
    rfl

/-- **What becomes of a reference whose scope is known**: it is spliced if its name is reserved and
neither in scope nor bound around the tree. -/
theorem at?_spliceFree {u : Tree} {n : Name} (hu : u.reference? = some n) :
    ∀ {path : List Nat} {t : Tree} (bound : List Name) {scope : NameScope},
      t.at? rule path = some (scope, u) →
        (t.spliceFree rule r bound).at? rule path =
          some (scope, if r.contains n ∧ scope.lookup n = none ∧ n ∉ bound then splice u u.span
            else u)
  | [], t, bound, scope, h => by
    rw [at?_nil, Option.some.injEq, Prod.mk.injEq] at h
    obtain ⟨rfl, rfl⟩ := h
    rw [at?_nil, spliceFree_of_reference hu]
    simp
  | k :: path, t, bound, scope, h => by
    obtain ⟨names, c, inner, hk, hc, rfl⟩ := at?_cons_eq_some_iff.mp h
    have hinner := at?_spliceFree hu (names.map Prod.fst ++ bound) hc
    refine at?_cons_eq_some_iff.mpr
      ⟨names, _, inner, getElem?_visible_spliceFree hk, hinner.trans ?_, rfl⟩
    have hscope : (inner.under [k] ++ .ofNames names).lookup n = none ↔
        inner.lookup n = none ∧ n ∉ names.map Prod.fst := by
      rw [NameScope.lookup_eq_none_iff, NameScope.lookup_eq_none_iff, List.map_append,
        NameScope.map_fst_under, NameScope.map_fst_ofNames, List.mem_append, List.mem_reverse,
        not_or]
    simp only [hscope, List.mem_append, not_or, and_assoc]

end

end Tree

/-! ## 5. Splicing under guard -/

/-- **The guard makes splicing right.**  Each site of the body that declares a reserved name is found
once, in reading order.  Where none is found, splicing does what splicing with an eye on scopes does:
a reference to a reserved name is spliced exactly if no declaration in its scope binds the name. -/
theorem guards_splicing (r : ReservedNames) (body : Tree) :
    body.redeclarations r = body.sites.filterMap (Site.redeclaration? r) ∧
      (body.redeclarations r = [] → ∀ rule, body.spliceReserved r = body.spliceFree rule r []) ∧
      ∀ rule path scope u n, body.at? rule path = some (scope, u) → u.reference? = some n →
        (body.spliceFree rule r []).at? rule path =
          some (scope, if r.contains n ∧ scope.lookup n = none then .splice u u.span else u) := by
  refine ⟨body.redeclarations_eq_filterMap r, fun hnone rule => ?_, ?_⟩
  · have hinside := Tree.redeclarations_eq_nil_iff.mp hnone
    exact (Tree.spliceFree_eq_spliceReserved (fun _ hn => absurd hn List.not_mem_nil) hinside).symm
  · intro rule path scope u n hat hu
    have hfree := Tree.at?_spliceFree hu (r := r) [] hat
    simp only [List.not_mem_nil, not_false_eq_true, and_true] at hfree
    exact hfree

/-- With `p` reserved, in `x => { def m = p(x); m }` only the reference to `p` is spliced. -/
theorem guards_splicing_lambda :
    let r : ReservedNames := ⟨[⟨5⟩]⟩
    let p := Tree.ident ⟨5⟩ .nowhere
    let m : MethodDef Tree Tree :=
      { mods := {}, name := ⟨7⟩, tparams := [], groups := [], result := none,
        body := .apply p [.ident ⟨6⟩ .nowhere] .nowhere }
    let body := Tree.ofShape (.lambda [ValueDef.param ⟨6⟩ (.typeIdent ⟨2⟩ .nowhere) .nowhere]
      (.block [.methodDef m .nowhere] (.ident ⟨7⟩ .nowhere) .nowhere)) .nowhere
    body.redeclarations r = [] ∧
      ((body.spliceReserved r).at? .later [1, 0, 0, 0]).map Prod.snd = some (.splice p .nowhere) ∧
      ((body.spliceReserved r).at? .later [1, 0, 0, 1]).map Prod.snd =
        some (.ident ⟨6⟩ .nowhere) := by
  intro r p m body
  obtain ⟨-, hsplice, hat⟩ := guards_splicing r body
  have hnone : body.redeclarations r = [] := by decide
  refine ⟨hnone, ?_, ?_⟩
  · rw [hsplice hnone .later, hat .later [1, 0, 0, 0] _ p ⟨5⟩ rfl rfl]
    rfl
  · rw [hsplice hnone .later, hat .later [1, 0, 0, 1] _ (.ident ⟨6⟩ .nowhere) ⟨6⟩ rfl rfl]
    rfl

/-- With `p` reserved, splicing is wrong in `p => p`, and the parameter is found. -/
example :
    let r : ReservedNames := ⟨[⟨5⟩]⟩
    let body := Tree.ofShape (.lambda [ValueDef.param ⟨5⟩ (.typeIdent ⟨2⟩ .nowhere) .nowhere]
      (.ident ⟨5⟩ .nowhere)) .nowhere
    body.redeclarations r = [⟨⟨5⟩, .value, .nowhere⟩] ∧
      body.spliceFree .later r [] = body ∧ body.spliceReserved r ≠ body := by decide

end Enrich
