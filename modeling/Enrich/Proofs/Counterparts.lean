import Enrich.Proofs.Bindings
import Enrich.Proofs.Decisions
import Mathlib.Data.List.Forall2
/-!
# Trees that are the same but for some members

Two trees are the same but for some members of objects and packages, and what holds of these members
pair by pair (`C`) is all that is known of them.  What the expander reads off a tree, it then reads
off the other one, and what it generates is again the same but for such members: a body is spliced
and copied, and so are the members in it.

* `Tree.SameBut.eq_of_layers`: what is read off layer by layer is the same.
* `Tree.SameBut.spliceReserved`: splicing goes on in the members.
* `Extension.SameBut.faults_eq`: the same speaks against two extensions.
* `Extension.SameBut.stagedTrees`, `Extension.SameBut.runtimeTree`: the code that is generated.
* `judge_sameBut`: the verdicts are the same but for such members.
-/

namespace Enrich

/-! ## 1. The relation -/

/-- The scope of the members in a slot; a single tree has none. -/
def Slot.scope? {β : Type} : Slot β → Option Scope
  | .one _ => none
  | .members scope _ => some scope

theorem Shape.map_map {α β γ δ : Type} (g : β → γ) (g' : γ → δ) (s : Shape α β) :
    (s.map g).map g' = s.map (g' ∘ g) := bimap_bimap id g id g' s

/-- Two trees in one place are the same, but for members of objects and packages: there may be `y`
instead of `x` wherever `C x y`.  The place is the scope of the members that the trees are among, if
they are among members. -/
inductive Tree.SameBut (C : Tree → Tree → Prop) : Option Scope → Tree → Tree → Prop
  /-- Two nodes of one layer; what fills its holes comes in pairs. -/
  | node {place : Option Scope} (w : Shape Tree (Tree × Tree)) (span : Span) (ty : Option Name)
      (inside : ∀ l ∈ w.slots, ∀ p ∈ l.children, SameBut C l.scope? p.1 p.2) :
      SameBut C place ⟨w.map Prod.fst, span, ty⟩ ⟨w.map Prod.snd, span, ty⟩
  | member {x y : Tree} (h : C x y) : SameBut C (some .container) x y

namespace Tree.SameBut

variable {C C' : Tree → Tree → Prop} {place : Option Scope} {t u : Tree}

/-- What differs may differ by more. -/
theorem mono (hC : ∀ x y, C x y → C' x y) (h : SameBut C place t u) : SameBut C' place t u := by
  induction h with
  | node w span ty _ ih => exact .node w span ty ih
  | member h => exact .member (hC _ _ h)

/-- Layers that are filled in two ways, hole by hole. -/
theorem of_map {β : Type} {s : Shape Tree β} {f g : β → Tree} {span : Span} {ty : Option Name}
    (h : ∀ l ∈ s.slots, ∀ c ∈ l.children, SameBut C l.scope? (f c) (g c)) :
    SameBut C place ⟨s.map f, span, ty⟩ ⟨s.map g, span, ty⟩ := by
  let w : Shape Tree (Tree × Tree) := s.map fun c => (f c, g c)
  have hinside : ∀ l ∈ w.slots, ∀ p ∈ l.children, SameBut C l.scope? p.1 p.2 := by
    intro l hl p hp
    rw [Shape.slots_map] at hl
    obtain ⟨l, hl', rfl⟩ := List.mem_map.mp hl
    cases l with
    | one c =>
      rw [List.mem_singleton.mp hp]
      exact h _ hl' c (List.mem_singleton_self c)
    | members scope cs =>
      obtain ⟨c, hc, rfl⟩ := List.mem_map.mp hp
      exact h _ hl' c hc
  have hnode : SameBut C place _ _ := .node w span ty hinside
  rwa [Shape.map_map, Shape.map_map] at hnode

/-- A tree is the same but for nothing at all. -/
theorem refl (t : Tree) : ∀ place, SameBut C place t t := by
  induction t using Tree.induction with
  | step t _ ih =>
    intro place
    have h : SameBut C place ⟨t.shape.map id, t.span, t.ty⟩ ⟨t.shape.map id, t.span, t.ty⟩ :=
      of_map fun l hl c hc => ih c (mem_children_iff.mpr ⟨l, hl, hc⟩) l.scope?
    rwa [Shape.map, Shape.bimap_id, eta] at h

/-! ## 2. What is read off -/

/-- **What is read off layer by layer is the same**, if it is the same for the members. -/
theorem eq_of_layers {γ : Type} {g : Tree → γ} (layer : Shape Tree γ → Span → γ)
    (hg : ∀ t, g t = layer (t.shape.map g) t.span) (hC : ∀ x y, C x y → g x = g y)
    (h : SameBut C place t u) : g t = g u := by
  induction h with
  | node w span ty _ ih =>
    have hw : (w.map Prod.fst).map g = (w.map Prod.snd).map g := by
      rw [Shape.map_map, Shape.map_map]
      refine Shape.bimap_congr (fun _ _ => rfl) fun p hp => ?_
      rw [Shape.children_eq_slots, List.mem_flatMap] at hp
      obtain ⟨l, hl, hp⟩ := hp
      exact ih l hl p hp
    rw [hg, hg ⟨w.map Prod.snd, span, ty⟩, hw]
  | member h => exact hC _ _ h

theorem bindings_eq (hC : ∀ x y, C x y → x.bindings = y.bindings) (h : SameBut C place t u) :
    t.bindings = u.bindings := by
  refine eq_of_layers (fun s span => s.bindings id span) (fun t => ?_) hC h
  rw [Tree.bindings_eq, Shape.map, Shape.bindings_bimap]
  rfl

theorem kind_eq (hC : ∀ x y, C x y → x.kind = y.kind) (h : SameBut C place t u) :
    t.kind = u.kind := by
  refine eq_of_layers (fun s _ => s.kind) (fun t => ?_) hC h
  rw [kind]
  cases t.shape <;> rfl

/-- The depth is read off the outline and the depths in the slots. -/
theorem expansionDepth_eq (hC : ∀ x y, C x y → x.expansionDepth = y.expansionDepth)
    (h : SameBut C place t u) : t.expansionDepth = u.expansionDepth := by
  let annotations {α β : Type} (s : Shape α β) : Nat :=
    (s.methodHead?.map fun head => head.1.annotations.length).getD 0
  refine eq_of_layers (fun s _ => annotations s + s.children.foldr max 0) (fun t => ?_) hC h
  have hown : t.methodAnnotations = annotations t.shape := by
    rw [methodAnnotations]
    cases t.shape <;> rfl
  simp only [annotations, Shape.methodHead?_map] at hown ⊢
  rw [Tree.expansionDepth_eq, hown, Shape.map, Shape.children_bimap]

/-! ## 3. Splicing -/

/-- **Splicing goes on in the members.** -/
theorem spliceReserved {r : ReservedNames}
    (hC : ∀ x y, C x y → C (x.spliceReserved r) (y.spliceReserved r)) (h : SameBut C place t u) :
    SameBut C place (t.spliceReserved r) (u.spliceReserved r) := by
  induction h with
  | member h => exact .member (hC _ _ h)
  | @node place w span ty _ ih =>
    by_cases hreserved : ∃ n, w = .ident n ∧ r.contains n = true
    · -- a reference has nothing inside, so both are the same
      obtain ⟨n, rfl, -⟩ := hreserved
      exact refl _ place
    · have hother : ∀ (f : Tree × Tree → Tree) n, w.map f = .ident n → r.contains n = false := by
        intro f n hf
        cases w <;> cases hf
        simpa using fun hn => hreserved ⟨n, rfl, hn⟩
      rw [spliceReserved_of_not_ident (hother _), spliceReserved_of_not_ident (hother _),
        Shape.map_map, Shape.map_map]
      exact of_map ih

end Tree.SameBut

/-! ## 4. Built code -/

namespace Tree.SameBut

variable {C : Tree → Tree → Prop} {place : Option Scope} {t u : Tree}

theorem span_eq (h : SameBut C none t u) : t.span = u.span := by
  cases h
  rfl

theorem quote (h : SameBut C none t u) (span : Span) :
    SameBut C place (Tree.quote t span) (Tree.quote u span) := by
  refine .node (.quote (t, u)) span none fun l hl p hp => ?_
  rw [List.mem_singleton.mp hl] at hp ⊢
  rw [List.mem_singleton.mp hp]
  exact h

theorem appliedType (tpe : Tree) (h : SameBut C none t u) (span : Span) :
    SameBut C place (Tree.appliedType tpe [t] span) (Tree.appliedType tpe [u] span) := by
  refine .node (.appliedType (tpe, tpe) [(t, u)]) span none fun l hl p hp => ?_
  simp only [Shape.slots, Shape.children, List.map_cons, List.map_nil, List.mem_cons,
    List.not_mem_nil, or_false] at hl
  rcases hl with rfl | rfl <;> rw [List.mem_singleton.mp hp]
  · exact refl tpe none
  · exact h

/-- A block around two such trees keeps the statements. -/
theorem block (stats : List Tree) (h : SameBut C none t u) (span : Span) :
    SameBut C place (Tree.block stats t span) (Tree.block stats u span) := by
  let w : Shape Tree (Tree × Tree) := .block (stats.map fun c => (c, c)) (t, u)
  have hinside : ∀ l ∈ w.slots, ∀ p ∈ l.children, SameBut C l.scope? p.1 p.2 := by
    intro l hl p hp
    simp only [w, Shape.slots, List.mem_cons, List.not_mem_nil, or_false] at hl
    rcases hl with rfl | rfl
    · obtain ⟨c, -, rfl⟩ := List.mem_map.mp hp
      exact refl c _
    · rw [List.mem_singleton.mp hp]
      exact h
  have hnode : SameBut C place _ _ := .node w span none hinside
  simpa [w, Shape.map, Shape.bimap, Function.comp_def, Tree.block, ofShape] using hnode

end Tree.SameBut

/-! ## 5. Methods -/

/-- Two methods are the same but for such members in their code. -/
def MethodDef.SameBut (C : Tree → Tree → Prop) (d d' : MethodDef Tree Tree) : Prop :=
  ∃ w : MethodDef Tree (Tree × Tree), d = w.bimap id Prod.fst ∧ d' = w.bimap id Prod.snd ∧
    ∀ p ∈ w.children, Tree.SameBut C none p.1 p.2

section

variable {C : Tree → Tree → Prop} {place : Option Scope}

/-- Trees that are the same but for such members are two methods of that kind, or no methods. -/
theorem Tree.SameBut.method_cases {t u : Tree} (h : Tree.SameBut C none t u) :
    (∃ d d', MethodDef.SameBut C d d' ∧ t.shape = .methodDef d ∧ u.shape = .methodDef d' ∧
      t.span = u.span) ∨
    ((∀ d, t.shape ≠ .methodDef d) ∧ ∀ d, u.shape ≠ .methodDef d) := by
  cases h with
  | node w span ty inside =>
    cases w with
    | methodDef w =>
      refine .inl ⟨_, _, ⟨w, rfl, rfl, fun p hp => ?_⟩, rfl, rfl, rfl⟩
      exact inside (.one p) (List.mem_map_of_mem hp) p (List.mem_singleton_self p)
    | _ => exact .inr ⟨by simp [Shape.map, Shape.bimap], by simp [Shape.map, Shape.bimap]⟩

namespace MethodDef.SameBut

variable {d d' : MethodDef Tree Tree}

theorem refl (d : MethodDef Tree Tree) : MethodDef.SameBut C d d := by
  refine ⟨d.bimap id fun c => (c, c), ?_, ?_, fun p hp => ?_⟩
  · rw [bimap_bimap]
    exact (bimap_id d).symm
  · rw [bimap_bimap]
    exact (bimap_id d).symm
  · rw [children_bimap] at hp
    obtain ⟨c, -, rfl⟩ := List.mem_map.mp hp
    exact .refl c none

theorem methodDef (h : MethodDef.SameBut C d d') (span : Span) :
    Tree.SameBut C place (.methodDef d span) (.methodDef d' span) := by
  obtain ⟨w, rfl, rfl, hw⟩ := h
  refine .node (.methodDef w) span none fun l hl p hp => ?_
  obtain ⟨c, hc, rfl⟩ := List.mem_map.mp hl
  rw [List.mem_singleton.mp hp]
  exact hw c hc

theorem mods_eq (h : MethodDef.SameBut C d d') : d.mods = d'.mods := by
  obtain ⟨w, rfl, rfl, -⟩ := h
  rfl

theorem name_eq (h : MethodDef.SameBut C d d') : d.name = d'.name := by
  obtain ⟨w, rfl, rfl, -⟩ := h
  rfl

theorem tparams_eq (h : MethodDef.SameBut C d d') : d.tparams = d'.tparams := by
  obtain ⟨w, rfl, rfl, -⟩ := h
  rfl

theorem isNone_result_eq (h : MethodDef.SameBut C d d') : d.result.isNone = d'.result.isNone := by
  obtain ⟨w, rfl, rfl, -⟩ := h
  simp [bimap]

theorem body (h : MethodDef.SameBut C d d') : Tree.SameBut C none d.body d'.body := by
  obtain ⟨w, rfl, rfl, hw⟩ := h
  exact hw w.body (by simp [children])

/-- The reserved names of a method are in its head, which both share. -/
theorem reserved_eq (h : MethodDef.SameBut C d d') (selfName : Name) :
    ReservedNames.ofMethod selfName d = ReservedNames.ofMethod selfName d' := by
  obtain ⟨w, rfl, rfl, -⟩ := h
  rw [ReservedNames.ofMethod_bimap, ReservedNames.ofMethod_bimap]

/-- The parameters and the result of a method, with another head and another body. -/
theorem withBody (h : MethodDef.SameBut C d d') (mods : Modifiers Tree) (name : Name)
    (tparams : List TypeParam) {b b' : Tree} (hb : Tree.SameBut C none b b') :
    MethodDef.SameBut C { mods, name, tparams, groups := d.groups, result := d.result, body := b }
      { mods, name, tparams, groups := d'.groups, result := d'.result, body := b' } := by
  obtain ⟨w, rfl, rfl, hw⟩ := h
  refine ⟨{ w with mods, name, tparams, body := (b, b') }, ?_, ?_, fun p hp => ?_⟩
  · simp [bimap, Modifiers.map]
  · simp [bimap, Modifiers.map]
  · simp only [children, params, List.mem_append, List.mem_singleton] at hp
    rcases hp with hp | hp | rfl
    · exact hw p (by simp only [children, params, List.mem_append]; exact .inl hp)
    · exact hw p (by simp only [children, List.mem_append]; exact .inr (.inl hp))
    · exact hb

/-- The parameters and the result of a method as those of a generator. -/
theorem staged (h : MethodDef.SameBut C d d') (g : Generator) (mods : Modifiers Tree) (name : Name)
    (tparams : List TypeParam) (first : List (ValueDef Tree Tree))
    (last : List (List (ValueDef Tree Tree))) {b b' : Tree} (hb : Tree.SameBut C none b b') :
    MethodDef.SameBut C
      { mods, name, tparams, groups := first :: d.groups.map (·.map g.stagedParam) ++ last
        result := d.result.map g.stagedType, body := b }
      { mods, name, tparams, groups := first :: d'.groups.map (·.map g.stagedParam) ++ last
        result := d'.result.map g.stagedType, body := b' } := by
  obtain ⟨w, rfl, rfl, hw⟩ := h
  let twice (p : ValueDef Tree Tree) : ValueDef Tree (Tree × Tree) := p.bimap id fun c => (c, c)
  let stagedPair (p : Tree × Tree) : Tree × Tree := (g.stagedType p.1, g.stagedType p.2)
  let stagedParam (p : ValueDef Tree (Tree × Tree)) : ValueDef Tree (Tree × Tree) :=
    { p with tpe := p.tpe.map stagedPair }
  have htwice : ∀ ps : List (ValueDef Tree Tree), ∀ p ∈ (ps.map twice).flatMap ValueDef.children,
      Tree.SameBut C none p.1 p.2 := by
    intro ps p hp
    rw [ValueDef.flatMap_children_bimap] at hp
    obtain ⟨c, -, rfl⟩ := List.mem_map.mp hp
    exact .refl c none
  refine ⟨{
    mods, name, tparams
    groups := first.map twice :: w.groups.map (·.map stagedParam) ++ last.map (·.map twice)
    result := w.result.map stagedPair
    body := (b, b') }, ?_, ?_, fun p hp => ?_⟩
  · simp [bimap, Modifiers.map, ValueDef.bimap, twice, stagedParam, stagedPair,
      Generator.stagedParam, Function.comp_def]
  · simp [bimap, Modifiers.map, ValueDef.bimap, twice, stagedParam, stagedPair,
      Generator.stagedParam, Function.comp_def]
  · have hparams : w.groups.flatten.map stagedParam = (w.groups.map (·.map stagedParam)).flatten :=
      List.map_flatten
    have hlast : last.flatten.map twice = (last.map (·.map twice)).flatten := List.map_flatten
    have hstaged : ∀ X, Tree.SameBut C none X.1 X.2 →
        Tree.SameBut C none (stagedPair X).1 (stagedPair X).2 := fun X hX =>
      .appliedType _ hX g.span
    simp only [children, params, List.cons_append, List.flatten_cons, List.flatten_append,
      List.flatMap_append, ← hparams, ← hlast, List.mem_append, List.mem_singleton] at hp
    rcases hp with (hp | hp | hp) | hp | rfl
    · exact htwice first p hp
    · obtain ⟨_, hmem, hp⟩ := List.mem_flatMap.mp hp
      obtain ⟨q, hq, rfl⟩ := List.mem_map.mp hmem
      have hin : ∀ c ∈ q.children, Tree.SameBut C none c.1 c.2 := fun c hc =>
        hw c (List.mem_append_left _ (List.mem_flatMap.mpr ⟨q, hq, hc⟩))
      simp only [stagedParam, ValueDef.children, List.mem_append, Option.mem_toList,
        Option.map_eq_some_iff] at hp hin
      rcases hp with ⟨X, hX, rfl⟩ | hp
      · exact hstaged X (hin X (.inl hX))
      · exact hin p (.inr hp)
    · exact htwice last.flatten p hp
    · obtain ⟨X, hX, rfl⟩ := Option.map_eq_some_iff.mp (Option.mem_toList.mp hp)
      exact hstaged X (hw X (by simp [children, hX]))
    · exact hb

/-- A wrapper class, around methods that are the same but for such members. -/
theorem wrapperClass (h : MethodDef.SameBut C d d') (v : Vocabulary) (group : Name)
    (outer : List TypeParam) (target : Target) (span : Span) :
    Tree.SameBut C none (wrapperClass v group outer target d span)
      (Enrich.wrapperClass v group outer target d' span) := by
  refine .node (.classDef {
    mods := { flags := { isImplicit := true } }
    name := group
    tparams := outer
    params := [.param v.selfName (target.tpe, target.tpe) span]
    body := [(.methodDef d span, .methodDef d' span)] }) span none fun l hl p hp => ?_
  simp only [Shape.slots, ValueDef.param, ValueDef.children, List.flatMap_cons, List.flatMap_nil,
    Option.toList_some, Option.toList_none, List.append_nil, List.map_cons, List.map_nil,
    List.cons_append, List.nil_append, List.mem_cons, List.not_mem_nil, or_false] at hl
  rcases hl with rfl | rfl <;> rw [List.mem_singleton.mp hp]
  · exact .refl _ _
  · exact h.methodDef span

end MethodDef.SameBut

/-! ## 6. Extensions -/

/-- Two extensions are the same but for such members in the code of their methods. -/
structure Extension.SameBut (C : Tree → Tree → Prop) (e e' : Extension) : Prop where
  kind : e.kind = e'.kind
  payload : e.payload = e'.payload
  method : MethodDef.SameBut C e.method e'.method
  span : e.span = e'.span

/-- What is known of the members that are not the same: they go on in splicing, and they declare
the same names, are of one form and equally deep. -/
structure Corresponds (C : Tree → Tree → Prop) : Prop where
  spliced : ∀ r x y, C x y → C (x.spliceReserved r) (y.spliceReserved r)
  bindings : ∀ x y, C x y → x.bindings = y.bindings
  kind : ∀ x y, C x y → x.kind = y.kind
  depth : ∀ x y, C x y → x.expansionDepth = y.expansionDepth

namespace Extension.SameBut

variable {e e' : Extension} {v : Vocabulary}

theorem refl (e : Extension) : Extension.SameBut C e e := ⟨rfl, rfl, .refl e.method, rfl⟩

section

variable (hC : Corresponds C) (h : Extension.SameBut C e e')
include hC h

theorem hasStagedBody_eq : e.hasStagedBody = e'.hasStagedBody := by
  rw [hasStagedBody, hasStagedBody, h.method.mods_eq, h.method.body.kind_eq hC.kind]

/-- **The same speaks against both.** -/
theorem faults_eq : e.faults v = e'.faults v := by
  have hmethod : e.methodFaults v = e'.methodFaults v := by
    simp only [methodFaults, reserved, Tree.redeclarations, h.hasStagedBody_eq hC,
      h.method.isNone_result_eq, h.method.name_eq, h.span, h.method.reserved_eq v.selfName,
      h.method.body.bindings_eq hC.bindings]
  simp only [faults, targetFaults, h.payload, h.kind, hmethod]

theorem generatedBody :
    Tree.SameBut C none (e.generatedBody v) (e'.generatedBody v) := by
  have hreserved : e.reserved v = e'.reserved v := h.method.reserved_eq v.selfName
  unfold Extension.generatedBody
  rw [h.hasStagedBody_eq hC, hreserved, h.method.body.span_eq]
  split
  · exact h.method.body
  · exact .quote (h.method.body.spliceReserved (hC.spliced _)) _

/-- The generator of two such extensions differs in its body only. -/
theorem generator (target : Target) (names : StagedNames) :
    MethodDef.SameBut C (e.generator v target names) (e'.generator v target names) := by
  have hbody : Tree.SameBut C none (e.generator v target names).body
      (e'.generator v target names).body := by
    simp only [Extension.generator, h.span]
    exact .block _ (h.generatedBody hC) _
  simp only [Extension.generator, h.span, h.method.name_eq, h.method.tparams_eq] at hbody ⊢
  exact h.method.staged _ _ _ _ _ _ hbody

/-- **The code of a staged extension.** -/
theorem stagedTrees (target : Target) (names : StagedNames) :
    List.Forall₂ (Tree.SameBut C none) (e.stagedTrees v target names)
      (e'.stagedTrees v target names) := by
  have hforwarder : MethodDef.SameBut C (e.forwarder target names.group)
      (e'.forwarder target names.group) := by
    simp only [Extension.forwarder, h.span, h.method.name_eq, h.method.tparams_eq, h.method.mods_eq]
    exact h.method.withBody _ _ _ (.refl _ _)
  simp only [Extension.stagedTrees, h.span, h.method.tparams_eq]
  refine .cons (hforwarder.wrapperClass _ _ _ _ _) (.cons ?_ .nil)
  refine .node (.objectDef {
    mods := {}
    name := names.group
    body := [(.methodDef (e.generator v target names) e'.span,
      .methodDef (e'.generator v target names) e'.span)] }) e'.span none fun l hl p hp => ?_
  rw [List.mem_singleton.mp hl] at hp ⊢
  rw [List.mem_singleton.mp hp]
  exact (h.generator hC target names).methodDef e'.span

end

/-- **The code of a runtime extension.** -/
theorem runtimeTree (h : Extension.SameBut C e e') (target : Target) (group : Name) :
    Tree.SameBut C none (e.runtimeTree v target group) (e'.runtimeTree v target group) := by
  have hmethod := h.method.withBody e'.method.mods e'.method.name
    (splitTypeParams e'.method.tparams target).2 h.method.body
  simp only [Extension.runtimeTree, h.span, h.method.name_eq, h.method.tparams_eq, h.method.mods_eq]
  exact hmethod.wrapperClass _ _ _ _ _

end Extension.SameBut

/-! ## 7. Verdicts -/

/-- Two verdicts are the same but for such members in the extensions they are about. -/
inductive Verdict.SameBut (C : Tree → Tree → Prop) : Verdict → Verdict → Prop
  | keep (remarks : List Remark) : SameBut C (.keep remarks) (.keep remarks)
  | drop (faults : List Fault) : SameBut C (.drop faults) (.drop faults)
  | extend (spelling : List Fault) {e e' : Extension} (target : Target)
      (h : Extension.SameBut C e e') :
      SameBut C (.extend spelling e target) (.extend spelling e' target)

theorem Extension.SameBut.ofFound {d d' : MethodDef Tree Tree} (h : MethodDef.SameBut C d d')
    (f : Found) (span : Span) :
    Extension.SameBut C (.ofFound f d span) (.ofFound f d' span) where
  kind := rfl
  payload := rfl
  span := rfl
  method := by
    obtain ⟨w, rfl, rfl, hw⟩ := h
    refine ⟨{ w with mods.annotations := w.mods.annotations.eraseIdx f.index }, ?_, ?_, hw⟩ <;>
      simp [Extension.ofFound, MethodDef.bimap, Modifiers.map]

theorem judgeFound_sameBut (hC : Corresponds C) (v : Vocabulary) (scope : Scope)
    {d d' : MethodDef Tree Tree} (h : MethodDef.SameBut C d d') (span : Span) (f : Found) :
    Verdict.SameBut C (judgeFound v scope d span f) (judgeFound v scope d' span f) := by
  have hext := Extension.SameBut.ofFound h f span
  unfold judgeFound
  rw [h.name_eq]
  split
  · split
    · exact .drop _
    · exact .keep _
  · dsimp only
    rw [hext.faults_eq hC, hext.payload]
    split
    · exact .extend _ _ hext
    · exact .drop _

/-- **The verdicts on two trees are the same but for such members.** -/
theorem judge_sameBut (hC : Corresponds C) (v : Vocabulary) (scope : Scope) {t u : Tree}
    (h : Tree.SameBut C none t u) : Verdict.SameBut C (judge v scope t) (judge v scope u) := by
  rcases h.method_cases with ⟨d, d', hd, ht, hu, hspan⟩ | ⟨ht, hu⟩
  · simp only [judge, ht, hu, ← hd.mods_eq, ← hd.name_eq, ← hspan]
    split
    · exact .keep _
    · exact .drop _
    · exact .drop _
    · exact judgeFound_sameBut hC v scope hd _ _
  · rw [judge_of_not_method ht, judge_of_not_method hu]
    exact .keep []

end

end Enrich
