import Enrich.Tree.Shape
/-!
# Layers that agree

Two layers agree when they are of one form and their holes, taken in order, pass a test.  The test
at the holes is a parameter: a comparison of whole trees is the comparison of one layer whose
holes are compared by the comparison itself.

* `Shape.agree_iff`: two layers agree exactly when they are equal, given that the test decides
  equality at the holes.
-/

namespace Enrich

variable {α β γ δ : Type}

/-! ## 1. The test -/

/-- Do two lists have one length and agree position by position? -/
def agreeAll (p : α → γ → Bool) : List α → List γ → Bool
  | [], [] => true
  | a :: as, c :: cs => p a c && agreeAll p as cs
  | _, _ => false

/-- Are both absent, or both present and agree? -/
def agreeOpt (p : α → γ → Bool) : Option α → Option γ → Bool
  | none, none => true
  | some a, some c => p a c
  | _, _ => false

/-- Do two lists of modifiers agree, annotation by annotation? -/
def Modifiers.agree (p : α → γ → Bool) (m : Modifiers α) (m' : Modifiers γ) : Bool :=
  m.flags == m'.flags && agreeAll p m.annotations m'.annotations

/-- Do two value definitions agree, hole by hole? -/
def ValueDef.agree (p : α → γ → Bool) (q : β → δ → Bool) (d : ValueDef α β) (e : ValueDef γ δ) :
    Bool :=
  d.mods.agree p e.mods && d.name == e.name && agreeOpt q d.tpe e.tpe && agreeOpt q d.init e.init
    && d.span == e.span

/-- Do two methods agree, hole by hole? -/
def MethodDef.agree (p : α → γ → Bool) (q : β → δ → Bool) (d : MethodDef α β) (e : MethodDef γ δ) :
    Bool :=
  d.mods.agree p e.mods && d.name == e.name && d.tparams == e.tparams
    && agreeAll (agreeAll (ValueDef.agree p q)) d.groups e.groups && agreeOpt q d.result e.result
    && q d.body e.body

/-- Do two classes agree, hole by hole? -/
def ClassDef.agree (p : α → γ → Bool) (q : β → δ → Bool) (d : ClassDef α β) (e : ClassDef γ δ) :
    Bool :=
  d.mods.agree p e.mods && d.name == e.name && d.tparams == e.tparams
    && agreeAll (ValueDef.agree p q) d.params e.params && agreeAll q d.body e.body

/-- Do two objects agree, hole by hole? -/
def ObjectDef.agree (p : α → γ → Bool) (q : β → δ → Bool) (d : ObjectDef α β) (e : ObjectDef γ δ) :
    Bool :=
  d.mods.agree p e.mods && d.name == e.name && agreeAll q d.body e.body

/-- Do two arms agree, hole by hole? -/
def Arm.agree (q : β → δ → Bool) (a : Arm β) (b : Arm δ) : Bool :=
  q a.pat b.pat && agreeOpt q a.guard b.guard && q a.body b.body

/-- Do two layers have one form and agree, hole by hole? -/
def Shape.agree (p : α → γ → Bool) (q : β → δ → Bool) : Shape α β → Shape γ δ → Bool
  | .ident n, .ident n' => n == n'
  | .typeIdent n, .typeIdent n' => n == n'
  | .literal v, .literal v' => v == v'
  | .select t n, .select t' n' => q t t' && n == n'
  | .apply t as, .apply t' as' => q t t' && agreeAll q as as'
  | .typeApply t as, .typeApply t' as' => q t t' && agreeAll q as as'
  | .appliedType t as, .appliedType t' as' => q t t' && agreeAll q as as'
  | .new t, .new t' => q t t'
  | .block ss r, .block ss' r' => agreeAll q ss ss' && q r r'
  | .matchOn t as, .matchOn t' as' => q t t' && agreeAll (Arm.agree q) as as'
  | .bind n t, .bind n' t' => n == n' && q t t'
  | .wildcard, .wildcard => true
  | .lambda ps b, .lambda ps' b' => agreeAll (ValueDef.agree p q) ps ps' && q b b'
  | .valueDef d, .valueDef d' => d.agree p q d'
  | .methodDef d, .methodDef d' => d.agree p q d'
  | .classDef d, .classDef d' => d.agree p q d'
  | .objectDef d, .objectDef d' => d.agree p q d'
  | .package n ss, .package n' ss' => n == n' && agreeAll q ss ss'
  | .quote t, .quote t' => q t t'
  | .splice t, .splice t' => q t t'
  | .tag i, .tag i' => i == i'
  | _, _ => false

/-! ## 2. Filled holes

A layer whose holes were filled by `f` and `g` agrees with another as the layer itself does under
the tests that fill first. -/

section

variable {ε ζ : Type} (p : ε → γ → Bool) (q : ζ → δ → Bool) (f : α → ε) (g : β → ζ)

/-- A list of filled holes agrees with another if the unfilled one passes the test that fills
first. -/
theorem agreeAll_map : ∀ l : List α, agreeAll p (l.map f) = agreeAll (fun a => p (f a)) l
  | [] => funext fun l' => by cases l' <;> rfl
  | a :: l => funext fun l' => by cases l' <;> simp [agreeAll, agreeAll_map l]

theorem agreeOpt_map (o : Option α) : agreeOpt p (o.map f) = agreeOpt (fun a => p (f a)) o :=
  funext fun o' => by cases o <;> cases o' <;> rfl

/-- Only the annotations of modifiers have holes; the flags are compared as they stand. -/
theorem Modifiers.agree_map (m : Modifiers α) :
    (m.map f).agree p = m.agree (fun a => p (f a)) :=
  funext fun m' => by simp [agree, map, agreeAll_map]

/-- A value definition has holes of both sorts, and each test is put behind its own filling. -/
theorem ValueDef.agree_bimap (d : ValueDef α β) :
    (d.bimap f g).agree p q = d.agree (fun a => p (f a)) (fun b => q (g b)) :=
  funext fun d' => by simp [agree, bimap, Modifiers.agree_map, agreeOpt_map]

theorem Arm.agree_map (a : Arm β) : (a.map g).agree q = a.agree (fun b => q (g b)) :=
  funext fun a' => by simp [agree, map, agreeOpt_map]

/-- **Filling a layer before the test** is testing it through the fillings. -/
theorem Shape.agree_bimap (s : Shape α β) :
    (s.bimap f g).agree p q = s.agree (fun a => p (f a)) (fun b => q (g b)) := by
  funext s'
  cases s <;> cases s' <;>
    simp [agree, bimap, agreeAll_map, ValueDef.agree_bimap, Arm.agree_map, MethodDef.agree,
      MethodDef.bimap, ClassDef.agree, ClassDef.bimap, ObjectDef.agree, ObjectDef.bimap,
      Modifiers.agree_map, agreeOpt_map]

end

/-! ## 3. What it decides -/

section

variable {p : α → α → Bool} {q : β → β → Bool}

/-- A test that decides equality for the members of a list decides it for the list.  It is asked
about those members only: in a recursion over trees that is all one knows. -/
theorem agreeAll_iff : ∀ {l l' : List α}, (∀ a ∈ l, ∀ b, p a b = true ↔ a = b) →
    (agreeAll p l l' = true ↔ l = l')
  | [], [], _ => by simp [agreeAll]
  | [], _ :: _, _ => by simp [agreeAll]
  | _ :: _, [], _ => by simp [agreeAll]
  | a :: l, b :: l', h => by
    simp only [agreeAll, Bool.and_eq_true, List.cons.injEq, h a List.mem_cons_self,
      agreeAll_iff fun c hc => h c (List.mem_cons_of_mem _ hc)]

/-- The same for what may be absent. -/
theorem agreeOpt_iff {o o' : Option β} (h : ∀ a ∈ o.toList, ∀ b, q a b = true ↔ a = b) :
    agreeOpt q o o' = true ↔ o = o' := by
  cases o <;> cases o' <;> simp_all [agreeOpt]

theorem Modifiers.agree_iff {m m' : Modifiers α}
    (h : ∀ a ∈ m.annotations, ∀ b, p a b = true ↔ a = b) : m.agree p m' = true ↔ m = m' := by
  obtain ⟨fl, as⟩ := m
  obtain ⟨fl', as'⟩ := m'
  simp [agree, agreeAll_iff h]

/-- Value definitions agree exactly when they are equal: the hypotheses are about the annotations
and the code of the first of them. -/
theorem ValueDef.agree_iff {d d' : ValueDef α β}
    (hp : ∀ a ∈ d.mods.annotations, ∀ b, p a b = true ↔ a = b)
    (hq : ∀ a ∈ d.children, ∀ b, q a b = true ↔ a = b) : d.agree p q d' = true ↔ d = d' := by
  obtain ⟨m, n, t, i, s⟩ := d
  obtain ⟨m', n', t', i', s'⟩ := d'
  simp only [children, List.mem_append] at hq
  simp [agree, Modifiers.agree_iff hp, agreeOpt_iff fun a ha => hq a (.inl ha),
    agreeOpt_iff fun a ha => hq a (.inr ha), and_assoc]

theorem ValueDef.agreeAll_iff {ds ds' : List (ValueDef α β)}
    (hp : ∀ a ∈ ds.flatMap (·.mods.annotations), ∀ b, p a b = true ↔ a = b)
    (hq : ∀ a ∈ ds.flatMap children, ∀ b, q a b = true ↔ a = b) :
    agreeAll (agree p q) ds ds' = true ↔ ds = ds' :=
  Enrich.agreeAll_iff fun d hd _ => agree_iff
    (fun a ha => hp a (List.mem_flatMap.mpr ⟨d, hd, ha⟩))
    (fun a ha => hq a (List.mem_flatMap.mpr ⟨d, hd, ha⟩))

/-- Methods agree exactly when they are equal, their parameters compared group by group. -/
theorem MethodDef.agree_iff {d d' : MethodDef α β}
    (hp : ∀ a ∈ d.mods.annotations ++ d.params.flatMap (·.mods.annotations),
      ∀ b, p a b = true ↔ a = b)
    (hq : ∀ a ∈ d.children, ∀ b, q a b = true ↔ a = b) : d.agree p q d' = true ↔ d = d' := by
  obtain ⟨m, n, tps, groups, r, body⟩ := d
  obtain ⟨m', n', tps', groups', r', body'⟩ := d'
  simp only [children, params, List.mem_append, List.mem_singleton] at hp hq
  have hg : agreeAll (agreeAll (ValueDef.agree p q)) groups groups' = true ↔ groups = groups' := by
    refine agreeAll_iff fun ds hds _ => ValueDef.agreeAll_iff ?_ ?_
    · intro a ha
      obtain ⟨d, hd, ha⟩ := List.mem_flatMap.mp ha
      exact hp a (.inr (List.mem_flatMap.mpr ⟨d, List.mem_flatten.mpr ⟨ds, hds, hd⟩, ha⟩))
    · intro a ha
      obtain ⟨d, hd, ha⟩ := List.mem_flatMap.mp ha
      exact hq a (.inl (List.mem_flatMap.mpr ⟨d, List.mem_flatten.mpr ⟨ds, hds, hd⟩, ha⟩))
  simp [agree, Modifiers.agree_iff fun a ha => hp a (.inl ha), hg,
    agreeOpt_iff fun a ha => hq a (.inr (.inl ha)), hq body (.inr (.inr rfl)), and_assoc]

/-- Classes agree exactly when they are equal. -/
theorem ClassDef.agree_iff {d d' : ClassDef α β}
    (hp : ∀ a ∈ d.mods.annotations ++ d.params.flatMap (·.mods.annotations),
      ∀ b, p a b = true ↔ a = b)
    (hq : ∀ a ∈ d.children, ∀ b, q a b = true ↔ a = b) : d.agree p q d' = true ↔ d = d' := by
  obtain ⟨m, n, tps, ps, body⟩ := d
  obtain ⟨m', n', tps', ps', body'⟩ := d'
  simp only [children, List.mem_append] at hp hq
  simp [agree, Modifiers.agree_iff fun a ha => hp a (.inl ha),
    ValueDef.agreeAll_iff (fun a ha => hp a (.inr ha)) (fun a ha => hq a (.inl ha)),
    agreeAll_iff fun a ha => hq a (.inr ha), and_assoc]

theorem ObjectDef.agree_iff {d d' : ObjectDef α β}
    (hp : ∀ a ∈ d.mods.annotations, ∀ b, p a b = true ↔ a = b)
    (hq : ∀ a ∈ d.body, ∀ b, q a b = true ↔ a = b) : d.agree p q d' = true ↔ d = d' := by
  obtain ⟨m, n, body⟩ := d
  obtain ⟨m', n', body'⟩ := d'
  simp [agree, Modifiers.agree_iff hp, agreeAll_iff hq, and_assoc]

/-- Arms agree exactly when pattern, guard and body are equal. -/
theorem Arm.agree_iff {a a' : Arm β} (hq : ∀ c ∈ a.children, ∀ b, q c b = true ↔ c = b) :
    a.agree q a' = true ↔ a = a' := by
  obtain ⟨t, g, b⟩ := a
  obtain ⟨t', g', b'⟩ := a'
  simp only [children, List.mem_cons, List.mem_append, List.not_mem_nil, or_false] at hq
  simp [agree, hq t (.inl rfl), agreeOpt_iff fun c hc => hq c (.inr (.inl hc)),
    hq b (.inr (.inr rfl)), and_assoc]

/-- **Two layers agree exactly when they are equal**, if the tests at the holes decide equality
at what stands in the first of them. -/
theorem Shape.agree_iff {s s' : Shape α β}
    (hp : ∀ a ∈ s.annotations, ∀ b, p a b = true ↔ a = b)
    (hq : ∀ a ∈ s.children, ∀ b, q a b = true ↔ a = b) : s.agree p q s' = true ↔ s = s' := by
  cases s with
  | ident | typeIdent | literal | wildcard | tag => cases s' <;> simp [agree]
  | select t n | new t | bind n t | quote t | splice t =>
    cases s' <;> simp [agree, hq t (by simp [children])]
  | apply t args | typeApply t args | appliedType t args =>
    have hargs : ∀ {as'}, agreeAll q args as' = true ↔ args = as' :=
      agreeAll_iff fun b hb => hq b (List.mem_cons_of_mem _ hb)
    cases s' <;> simp [agree, hq t (by simp [children]), hargs]
  | block stats r =>
    have hstats : ∀ {ss'}, agreeAll q stats ss' = true ↔ stats = ss' :=
      agreeAll_iff fun b hb => hq b (List.mem_append_left _ hb)
    cases s' <;> simp [agree, hq r (by simp [children]), hstats]
  | matchOn t arms =>
    have harms : ∀ {as'}, agreeAll (Arm.agree q) arms as' = true ↔ arms = as' :=
      agreeAll_iff fun a ha _ => Arm.agree_iff fun b hb =>
        hq b (by simp only [children, List.mem_cons, List.mem_flatMap]; exact .inr ⟨a, ha, hb⟩)
    cases s' <;> simp [agree, hq t (by simp [children]), harms]
  | lambda ps b =>
    have hps : ∀ {ps'}, agreeAll (ValueDef.agree p q) ps ps' = true ↔ ps = ps' :=
      ValueDef.agreeAll_iff hp
        fun b hb => hq b (by simp only [children, List.mem_append]; exact .inl hb)
    cases s' <;> simp [agree, hq b (by simp [children]), hps]
  | valueDef d => cases s' <;> simp [agree, ValueDef.agree_iff hp hq]
  | methodDef d => cases s' <;> simp [agree, MethodDef.agree_iff hp hq]
  | classDef d => cases s' <;> simp [agree, ClassDef.agree_iff hp hq]
  | objectDef d => cases s' <;> simp [agree, ObjectDef.agree_iff hp hq]
  | package n stats =>
    have hstats : ∀ {ss'}, agreeAll q stats ss' = true ↔ stats = ss' := agreeAll_iff hq
    cases s' <;> simp [agree, hstats]

end

end Enrich
