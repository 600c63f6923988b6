import Enrich.Proofs.Rounds
/-!
# What expanding does to the declarations of a body

A run that meets no extension in a tree declares nothing new there.  A run that meets one puts a
wrapper class in its place, and the constructor of a wrapper class declares the receiver.  Which of
the two it is can be told from the tree (`Tree.expandsInside`).

* `Tree.mem_bindings_iff`: the declarations of a tree, node by node.
* `mem_bindings_of_expandUnit`: without an extension inside, nothing new is declared.
* `exists_selfName_of_expandsInside`: with one, the name of the receiver is.
* `Tree.expandsInside_spliceReserved`, `Tree.bindings_spliceReserved`: splicing changes neither the
  declarations nor what is met.
-/

namespace Enrich

/-! ## 1. Declarations, node by node -/

/-- The declarations at the root of a layer that stands at `span`. -/
def Shape.binders {α β : Type} (span : Span) : Shape α β → List Binding
  | .lambda ps _ => ps.map fun p => ⟨p.name, .value, p.span⟩
  | .valueDef d => [⟨d.name, .value, d.span⟩]
  | .methodDef d => ⟨d.name, .method, span⟩ :: d.params.map fun p => ⟨p.name, .value, p.span⟩
  | .classDef d => d.params.map fun p => ⟨p.name, .value, p.span⟩
  | .objectDef d => [⟨d.name, .object, span⟩]
  | .bind n _ => [⟨n, .pattern, span⟩]
  | _ => []

theorem Shape.binders_map {α β γ : Type} (g : β → γ) (span : Span) (s : Shape α β) :
    (s.map g).binders span = s.binders span := by
  have hps : ∀ ps : List (ValueDef α β), (ps.map (·.bimap id g)).map
      (fun p => (⟨p.name, .value, p.span⟩ : Binding)) = ps.map fun p => ⟨p.name, .value, p.span⟩ :=
    fun ps => by simp [ValueDef.bimap]
  cases s with
  | lambda ps b => exact hps ps
  | methodDef d =>
    simp only [map, bimap, binders, MethodDef.params_bimap, hps]
    rfl
  | classDef d => exact hps d.params
  | _ => rfl

theorem Shape.binders_form {α β : Type} (span : Span) (s : Shape α β) :
    s.form.binders span = s.binders span := by
  cases s with
  | block | objectDef | package => rfl
  | classDef d => simp [form, binders, ValueDef.bimap]
  | _ => exact binders_map _ span _

/-- The declarations in a list of parameters: theirs, and those inside them. -/
theorem ValueDef.mem_flatMap_bindings {α β : Type} {inside : β → List Binding} {b : Binding}
    {ps : List (ValueDef α β)} :
    b ∈ ps.flatMap (·.bindings inside) ↔
      b ∈ (ps.map fun p => (⟨p.name, .value, p.span⟩ : Binding)) ∨
        b ∈ (ps.flatMap ValueDef.children).flatMap inside := by
  induction ps with
  | nil => simp
  | cons p ps ih =>
    have hp : b ∈ p.bindings inside ↔ b = ⟨p.name, .value, p.span⟩ ∨
        b ∈ p.children.flatMap inside := List.mem_cons
    rw [List.flatMap_cons, List.mem_append, hp, ih, List.map_cons, List.mem_cons,
      List.flatMap_cons, List.flatMap_append, List.mem_append, or_or_or_comm]

theorem Shape.mem_bindings_iff {α β : Type} {inside : β → List Binding} {b : Binding} {span : Span}
    {s : Shape α β} :
    b ∈ s.bindings inside span ↔ b ∈ s.binders span ∨ b ∈ s.children.flatMap inside := by
  cases s with
  | lambda ps t =>
    simp only [bindings, binders, children, List.mem_append, ValueDef.mem_flatMap_bindings,
      List.flatMap_append, List.flatMap_cons, List.flatMap_nil, List.append_nil, or_assoc]
  | valueDef d => simp only [bindings, ValueDef.bindings, binders, children, List.mem_cons,
      List.not_mem_nil, or_false]
  | methodDef d =>
    simp only [bindings, binders, children, MethodDef.children, List.mem_cons, List.mem_append,
      ValueDef.mem_flatMap_bindings, List.flatMap_append, List.flatMap_cons, List.flatMap_nil,
      List.append_nil, or_assoc]
  | classDef d =>
    simp only [bindings, binders, children, ClassDef.children, List.mem_append,
      ValueDef.mem_flatMap_bindings, List.flatMap_append, or_assoc]
  | objectDef d =>
    simp only [bindings, binders, children, List.mem_cons, List.not_mem_nil, or_false]
  | bind n p =>
    simp only [bindings, binders, children, List.mem_cons, List.not_mem_nil, or_false,
      List.flatMap_cons, List.flatMap_nil, List.append_nil]
  | _ => simp only [bindings, binders, List.not_mem_nil, false_or]

namespace Tree

/-- The declarations at the root of a tree. -/
def binders (t : Tree) : List Binding := t.shape.binders t.span

/-- **The declarations of a tree are those of its root and those of its children.** -/
theorem mem_bindings_iff {t : Tree} {b : Binding} :
    b ∈ t.bindings ↔ b ∈ t.binders ∨ ∃ c ∈ t.shape.children, b ∈ c.bindings := by
  rw [bindings_eq, Shape.mem_bindings_iff, List.mem_flatMap]
  rfl

/-- The outline of a tree tells what its root declares. -/
theorem binders_of_outline {t u : Tree} (h : u.outline = t.outline) : u.binders = t.binders := by
  simp only [outline, Prod.mk.injEq] at h
  calc u.binders = u.shape.form.binders u.span := (Shape.binders_form _ _).symm
    _ = t.shape.form.binders t.span := by rw [h.1, h.2.1]
    _ = t.binders := Shape.binders_form _ _

end Tree

/-! ## 2. Extensions inside -/

/-- Is an extension met while a verdict is carried out?  `inside` tells whether one is met inside
the member. -/
def Verdict.meets (inside : Bool) : Verdict → Bool
  | .keep _ => inside
  | .drop _ => false
  | .extend _ _ _ => true

/-- Is an extension met in a slot, if each tree comes with the answer for its inside? -/
def Slot.meets (v : Vocabulary) : Slot (Tree × Bool) → Bool
  | .one c => c.2
  | .members scope ms => ms.any fun c => (judge v scope c.1).meets c.2

namespace Tree

/-- Is an extension expanded inside a tree?  Members that are kept are searched as well. -/
def expandsInside (v : Vocabulary) : Tree → Bool := fold fun _ s => s.slots.any (Slot.meets v)

theorem expandsInside_eq (v : Vocabulary) (t : Tree) :
    t.expandsInside v =
      t.slots.any fun l => (l.map fun c => (c, c.expandsInside v)).meets v := by
  rw [expandsInside, fold_eq, Shape.slots_map, List.any_map]
  rfl

end Tree

section

variable {v : Vocabulary}

/-- **Without an extension inside, nothing new is declared.** -/
theorem mem_bindings_of_expandUnit {t : Tree} (h : t.expandsInside v = false) (s : ExpandState) :
    ∀ b ∈ ((expandUnit v t).run s).1.bindings, b ∈ t.bindings := by
  induction t using Tree.induction generalizing s with
  | step t _ ih =>
    intro b hb
    obtain ⟨hout, hslots⟩ := run_expandUnit v t s
    rw [Tree.mem_bindings_iff] at hb ⊢
    rcases hb with hb | ⟨u, hu, hb⟩
    · exact .inl (Tree.binders_of_outline hout ▸ hb)
    -- the child `u` stands in a slot that was made of a slot of `t`
    · obtain ⟨l', hl', hul'⟩ := Tree.mem_children_iff.mp hu
      have hmade : l' ∈ ((t.slots.mapM (expandSlot v)).run s).1 := by rwa [hslots]
      obtain ⟨l, hl, s₁, rfl⟩ := exists_of_mem_run_mapM hmade
      have hmeets := List.any_eq_false.mp (Tree.expandsInside_eq v t ▸ h) l hl
      cases l with
      | one c =>
        have hc : c ∈ t.shape.children :=
          Tree.mem_children_iff.mpr ⟨_, hl, List.mem_singleton_self c⟩
        have hcm : c.expandsInside v = false := by simpa [Slot.map, Slot.meets] using hmeets
        obtain rfl := List.mem_singleton.mp hul'
        exact .inr ⟨c, hc, ih c hc hcm s₁ b hb⟩
      | members scope ms =>
        obtain ⟨c, hcms, s₂, hu⟩ := exists_of_mem_expandMembers hul'
        have hc : c ∈ t.shape.children := Tree.mem_children_iff.mpr ⟨_, hl, hcms⟩
        have hcm : (judge v scope c).meets (c.expandsInside v) = false := by
          simp only [Slot.map, Slot.meets, List.any_map, Bool.not_eq_true] at hmeets
          exact Bool.eq_false_iff.mpr (List.any_eq_false.mp hmeets c hcms)
        rw [expandMemberIn] at hu
        cases hj : judge v scope c with
        | keep remarks =>
          rw [run_expandMember_of_keep _ _ _ hj] at hu
          obtain rfl := List.mem_singleton.mp hu
          rw [hj] at hcm
          exact .inr ⟨c, hc, ih c hc hcm _ b hb⟩
        | drop faults =>
          rw [run_expandMember_of_drop _ _ _ hj] at hu
          exact absurd hu List.not_mem_nil
        | extend spelling e target =>
          rw [hj] at hcm
          contradiction

/-- A wrapper class declares the receiver, expanded or not. -/
theorem exists_selfName_of_wrapper {v : Vocabulary} {e : Extension} {target : Target}
    {trees : List Tree} (hy : e.Yields v target trees) :
    ∃ u ∈ trees, ∃ b ∈ u.binders, b.name = v.selfName := by
  unfold Extension.Yields at hy
  split at hy
  · obtain ⟨names, rfl⟩ := hy
    exact ⟨_, List.mem_cons_self, _, List.mem_cons_self, rfl⟩
  · obtain ⟨group, rfl⟩ := hy
    exact ⟨_, List.mem_cons_self, _, List.mem_cons_self, rfl⟩

/-- What becomes of a member that is replaced, or kept around such a member, declares the
receiver. -/
theorem exists_selfName_of_meets (scope : Scope) {t : Tree}
    (h : (judge v scope t).meets (t.expandsInside v) = true)
    (hin : t.expandsInside v = true → ∀ s : ExpandState,
      ∃ b ∈ ((expandUnit v t).run s).1.bindings, b.name = v.selfName) (s : ExpandState) :
    ∃ u ∈ ((expandMemberIn v scope t).run s).1, ∃ b ∈ u.bindings, b.name = v.selfName := by
  rw [expandMemberIn]
  cases hj : judge v scope t with
  | keep remarks =>
    rw [hj] at h
    rw [run_expandMember_of_keep _ _ _ hj]
    exact ⟨_, List.mem_singleton_self _, hin h _⟩
  | drop faults =>
    rw [hj] at h
    contradiction
  | extend spelling e target =>
    rw [run_expandMember_of_extend _ _ _ hj]
    let s₁ : ExpandState := { s with findings := s.findings ++ spelling.map .fault }
    obtain ⟨u, hu, b, hb, hname⟩ := exists_selfName_of_wrapper (e.yields_generate v target s₁)
    obtain ⟨s₂, hmem⟩ := exists_mem_run_mapM (f := expandUnit v) hu ((e.generate v target).run s₁).2
    -- expanding the wrapper class leaves its constructor as it is
    rw [← Tree.binders_of_outline (run_expandUnit v u s₂).1] at hb
    exact ⟨_, hmem, b, Tree.mem_bindings_iff.mpr (.inl hb), hname⟩

/-- **With an extension inside, the name of the receiver is declared.** -/
theorem exists_selfName_of_expandsInside {t : Tree} (h : t.expandsInside v = true)
    (s : ExpandState) : ∃ b ∈ ((expandUnit v t).run s).1.bindings, b.name = v.selfName := by
  induction t using Tree.induction generalizing s with
  | step t _ ih =>
    obtain ⟨-, hslots⟩ := run_expandUnit v t s
    obtain ⟨l, hl, hmeets⟩ := List.any_eq_true.mp (Tree.expandsInside_eq v t ▸ h)
    obtain ⟨s₁, hmade⟩ := exists_mem_run_mapM (f := expandSlot v) hl s
    rw [hslots] at hmade
    -- it is enough to find the declaration in what became of the slot
    suffices hslot : ∃ u ∈ ((expandSlot v l).run s₁).1.children,
        ∃ b ∈ u.bindings, b.name = v.selfName by
      obtain ⟨u, hu, b, hb, hname⟩ := hslot
      have hchild := Tree.mem_children_iff.mpr ⟨_, hmade, hu⟩
      exact ⟨b, Tree.mem_bindings_iff.mpr (.inr ⟨u, hchild, hb⟩), hname⟩
    cases l with
    | one c =>
      have hc : c ∈ t.shape.children :=
        Tree.mem_children_iff.mpr ⟨_, hl, List.mem_singleton_self c⟩
      exact ⟨_, List.mem_singleton_self _, ih c hc hmeets s₁⟩
    | members scope ms =>
      simp only [Slot.map, Slot.meets, List.any_map, List.any_eq_true] at hmeets
      obtain ⟨c, hcms, hcm⟩ := hmeets
      have hc : c ∈ t.shape.children := Tree.mem_children_iff.mpr ⟨_, hl, hcms⟩
      obtain ⟨before, after, rfl⟩ := List.append_of_mem hcms
      obtain ⟨u, hu, hdeclares⟩ := exists_selfName_of_meets scope hcm (ih c hc)
        ((expandMembers v scope before).run s₁).2
      refine ⟨u, ?_, hdeclares⟩
      have hout : ((expandSlot v (.members scope (before ++ c :: after))).run s₁).1.children =
          ((expandMembers v scope (before ++ c :: after)).run s₁).1 := rfl
      rw [hout, run_expandMembers_middle]
      exact List.mem_append_right _ (List.mem_append_left _ hu)

end

/-! ## 3. Splicing -/

namespace Tree

variable {r : ReservedNames}

/-- A tree is spliced at its root, where it is a reference, or below its root. -/
theorem spliceReserved_cases (r : ReservedNames) (t : Tree) :
    (∃ n, t.shape = .ident n ∧ t.spliceReserved r = splice t t.span) ∨
      t.spliceReserved r = ⟨t.shape.map (spliceReserved r), t.span, t.ty⟩ := by
  by_cases h : ∃ n, t.shape = .ident n ∧ r.contains n = true
  · obtain ⟨n, hn, hr⟩ := h
    exact .inl ⟨n, hn, spliceReserved_of_ident hn hr⟩
  · refine .inr (spliceReserved_of_not_ident fun n hn => ?_)
    exact Bool.eq_false_iff.mpr fun hr => h ⟨n, hn, hr⟩

/-- Splicing keeps the declarations. -/
theorem mem_bindings_spliceReserved {t : Tree} {b : Binding} :
    b ∈ (t.spliceReserved r).bindings ↔ b ∈ t.bindings := by
  induction t using induction with
  | step t _ ih =>
    rcases spliceReserved_cases r t with ⟨n, hn, hs⟩ | hs
    · rw [hs, mem_bindings_iff]
      simp [binders, splice, ofShape, Shape.binders, Shape.children]
    · rw [hs, mem_bindings_iff, mem_bindings_iff (t := t), binders, Shape.binders_map, Shape.map,
        Shape.children_bimap]
      constructor
      · rintro (hb | ⟨u, hu, hb⟩)
        · exact .inl hb
        · obtain ⟨c, hc, rfl⟩ := List.mem_map.mp hu
          exact .inr ⟨c, hc, (ih c hc).mp hb⟩
      · rintro (hb | ⟨c, hc, hb⟩)
        · exact .inl hb
        · exact .inr ⟨_, List.mem_map_of_mem hc, (ih c hc).mpr hb⟩

theorem redeclarations_eq_nil_iff {names : ReservedNames} {t : Tree} :
    t.redeclarations names = [] ↔ ∀ b ∈ t.bindings, names.contains b.name = false := by
  simp [redeclarations, List.filter_eq_nil_iff]

theorem redeclarations_spliceReserved {names : ReservedNames} {t : Tree} :
    (t.spliceReserved r).redeclarations names = [] ↔ t.redeclarations names = [] := by
  simp only [redeclarations_eq_nil_iff, mem_bindings_spliceReserved]

/-- Splicing makes no quotation. -/
theorem kind_spliceReserved {t : Tree} :
    (t.spliceReserved r).kind = .quote ↔ t.kind = .quote := by
  rcases spliceReserved_cases r t with ⟨n, hn, hs⟩ | hs
  · rw [hs, kind, kind, hn]
    simp [splice, ofShape, Shape.kind]
  · rw [hs, kind, kind]
    cases t.shape <;> simp [Shape.map, Shape.bimap, Shape.kind]

end Tree

theorem ReservedNames.ofMethod_bimap {α β γ : Type} (selfName : Name) (g : β → γ)
    (d : MethodDef α β) : ofMethod selfName (d.bimap id g) = ofMethod selfName d := by
  simp only [ofMethod, MethodDef.params_bimap, List.foldl_map]
  rfl

section

variable {v : Vocabulary} {r : ReservedNames}

/-- What speaks against an extension speaks against it when its inside is spliced. -/
theorem Extension.faults_spliced {f : Found} {d : MethodDef Tree Tree} {span : Span} :
    (ofFound f (d.bimap id (Tree.spliceReserved r)) span).faults v = [] ↔
      (ofFound f d span).faults v = [] := by
  let e := ofFound f d span
  let e' := ofFound f (d.bimap id (Tree.spliceReserved r)) span
  have htarget : e'.targetFaults = e.targetFaults := rfl
  have hstaged : e'.hasStagedBody = e.hasStagedBody := by
    have hkind : decide ((d.body.spliceReserved r).kind = .quote) = decide (d.body.kind = .quote) :=
      decide_eq_decide.mpr Tree.kind_spliceReserved
    exact congrArg (d.mods.flags.isDeferred || ·) hkind
  have hreserved : e'.reserved v = e.reserved v := ReservedNames.ofMethod_bimap _ _ d
  have hresult : e'.method.result.isNone = e.method.result.isNone := Option.isNone_map
  have hmethod : e'.methodFaults v = [] ↔ e.methodFaults v = [] := by
    simp only [methodFaults, List.append_eq_nil_iff, hresult, hstaged, hreserved]
    refine and_congr ?_ ?_
    · split <;> simp
    · split
      · exact Iff.rfl
      · rw [List.map_eq_nil_iff, List.map_eq_nil_iff]
        exact Tree.redeclarations_spliceReserved
  have hkind : e'.kind = e.kind := rfl
  show e'.faults v = [] ↔ e.faults v = []
  simp only [faults, htarget, hkind, List.append_eq_nil_iff]
  cases e.kind with
  | staged => exact and_congr Iff.rfl hmethod
  | runtime => exact Iff.rfl

/-- A verdict on one of two methods is carried out like the verdict on the other if they look the
same in front and have both faults or none. -/
theorem meets_judgeFound_congr {scope : Scope} {d d' : MethodDef Tree Tree} {span : Span}
    {f : Found}
    (h : (Extension.ofFound f d' span).faults v = [] ↔ (Extension.ofFound f d span).faults v = [])
    (inside : Bool) :
    (judgeFound v scope d' span f).meets inside = (judgeFound v scope d span f).meets inside := by
  unfold judgeFound
  by_cases hplace : scope = .enclosed ∧ f.kind = .staged
  · rw [if_pos hplace, if_pos hplace]
    split <;> rfl
  · rw [if_neg hplace, if_neg hplace]
    have htarget : (Extension.ofFound f d' span).payload =
        (Extension.ofFound f d span).payload := rfl
    dsimp only
    rw [htarget]
    cases (Extension.ofFound f d span).payload.asTarget? with
    | error bad => rfl
    | ok target =>
      by_cases hf : (Extension.ofFound f d span).faults v = []
      · rw [hf, h.mpr hf]
        rfl
      · have hf' : (Extension.ofFound f d' span).faults v ≠ [] := fun h' => hf (h.mp h')
        obtain ⟨a, l, hl⟩ := List.exists_cons_of_ne_nil hf
        obtain ⟨a', l', hl'⟩ := List.exists_cons_of_ne_nil hf'
        rw [hl, hl']
        rfl

theorem meets_judge_spliceReserved (scope : Scope) (t : Tree) (inside : Bool) :
    (judge v scope (t.spliceReserved r)).meets inside = (judge v scope t).meets inside := by
  rcases t.spliceReserved_cases r with ⟨n, hn, hs⟩ | hs
  · rw [hs, judge_of_not_method (by simp [Tree.splice, Tree.ofShape]),
      judge_of_not_method (by simp [hn])]
  · cases ht : t.methodHead? with
    | none =>
      have hs' : (t.spliceReserved r).methodHead? = none := by
        rw [hs]
        exact (Shape.methodHead?_map _ _).trans ht
      rw [judge_of_not_method (Tree.methodHead?_eq_none_iff.mp ht),
        judge_of_not_method (Tree.methodHead?_eq_none_iff.mp hs')]
    | some head =>
      obtain ⟨d, hd, -, -⟩ := Tree.methodHead?_eq_some_iff.mp ht
      have hd' : (t.spliceReserved r).shape = .methodDef (d.bimap id (Tree.spliceReserved r)) := by
        rw [hs, hd]
        rfl
      have hspan : (t.spliceReserved r).span = t.span := by rw [hs]
      have hanns : (d.bimap id (Tree.spliceReserved r)).mods.annotations = d.mods.annotations :=
        List.map_id _
      simp only [judge, hd, hd', hanns, hspan]
      cases Search.of v.annotations d.mods.annotations with
      | nothing => rfl
      | several spans => rfl
      | malformed arity span => rfl
      | found f => exact meets_judgeFound_congr Extension.faults_spliced inside

private theorem any_congr_of_mem {α : Type} {l : List α} {p q : α → Bool}
    (h : ∀ a ∈ l, p a = q a) : l.any p = l.any q := by
  have hmap : ∀ p : α → Bool, (l.map p).any id = l.any p := fun p => by
    rw [List.any_map, Function.id_comp]
  rw [← hmap p, ← hmap q, List.map_congr_left h]

/-- **Splicing changes nothing about what is expanded inside.** -/
theorem Tree.expandsInside_spliceReserved (t : Tree) :
    (t.spliceReserved r).expandsInside v = t.expandsInside v := by
  induction t using Tree.induction with
  | step t _ ih =>
    rcases t.spliceReserved_cases r with ⟨n, hn, hs⟩ | hs
    · rw [hs, expandsInside_eq]
      simp [splice, ofShape, slots, Shape.slots, Shape.children, Slot.map, Slot.meets]
    · have hslots : (t.spliceReserved r).slots = t.slots.map (Slot.map (spliceReserved r)) := by
        rw [hs]
        exact Shape.slots_map _ _
      rw [expandsInside_eq, hslots, List.any_map, expandsInside_eq v t]
      refine any_congr_of_mem fun l hl => ?_
      have hchild : ∀ c ∈ l.children, (c.spliceReserved r).expandsInside v = c.expandsInside v :=
        fun c hc => ih c (mem_children_iff.mpr ⟨l, hl, hc⟩)
      cases l with
      | one c => exact hchild c (List.mem_singleton_self c)
      | members scope ms =>
        simp only [Function.comp_apply, Slot.map, Slot.meets, List.any_map]
        refine any_congr_of_mem fun c hc => ?_
        simp only [Function.comp_apply, hchild c hc, meets_judge_spliceReserved]

end

end Enrich
