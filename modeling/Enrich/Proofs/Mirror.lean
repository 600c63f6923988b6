import Enrich.Proofs.Asking
import Enrich.Proofs.Freshness
/-!
# Two runs side by side

Two runs are made on one unit, in interners that hold different strings.  The names of the second
run are those of the first under a renaming `f`: for the unit that is assumed, and for generated
names it has to be, since the `k`-th name that one run generates corresponds to the `k`-th of the
other.  Then whatever the first run does the second does under `f`.

This is told step by step (`Mirrors`).  The steps compare names and never read their texts, but for
the hint that a generated name starts with; and what the name is called has no effect on its number.

Along with it goes what is found.  A finding has no generated name in it: that is why in the end
it reads the same in both runs, and why `Mirrors` says which names there can be in findings.

* `Mirrors.bind`, `Mirrors.mapM`: steps one after the other.
* `mirrors_expandUnit`: the main statement.
* `names_expandUnit`: what names there are in the output.
-/

namespace Enrich

/-! ## 1. Outlines and slots under other names -/

namespace Shape

variable {α β : Type} (f : Name → Name) (s : Shape α β)

theorem slots_rename : (s.rename f).slots = s.slots := by
  have hone : ∀ s s' : Shape α β, s.children = s'.children →
      s.children.map Slot.one = s'.children.map Slot.one := fun _ _ h => congrArg _ h
  cases s with
  | block | objectDef | package => rfl
  | classDef d =>
    simp only [rename, slots, ClassDef.rename, List.flatMap_map]
    rfl
  | _ => exact hone _ _ (children_rename f _)

theorem form_rename : (s.rename f).form = s.form.rename f := by
  have hmap : (s.rename f).map (fun _ => ()) = (s.map fun _ => ()).rename f :=
    (s.rename_bimap f id fun _ => ()).symm
  cases s with
  | classDef d =>
    simp only [rename, form, ClassDef.rename, List.map_map, Function.comp_def]
    rfl
  | block | objectDef | package => rfl
  | _ => exact hmap

end Shape

namespace Tree

variable (f : Name → Name) {t u : Tree}

theorem slots_rename (t : Tree) : (t.rename f).slots = t.slots.map (Slot.map (rename f)) := by
  rw [slots, shape_rename, Shape.slots_rename, Shape.slots_bimap]
  rfl

/-- Trees of one outline still have one when they are renamed. -/
theorem outline_rename (h : u.outline = t.outline) :
    (u.rename f).outline = (t.rename f).outline := by
  simp only [outline, Prod.mk.injEq] at h
  obtain ⟨hform, hspan, hty⟩ := h
  rw [rename_eq, rename_eq f t, outline, outline]
  simp only [Shape.form_rename, Shape.form_bimap, hform, hspan, hty]

end Tree

/-! ## 2. Steps side by side -/

/-- The step adds `count` strings to the interner and takes down `new`. -/
structure Adds {α : Type} (x : ExpandM α) (s : ExpandState) (count : Nat) (new : List Finding) :
    Prop where
  size : (x.run s).2.supply.interner.size = s.supply.interner.size + count
  findings : (x.run s).2.findings = s.findings ++ new

/-- The names that are added next correspond under `f`, as many as `count`. -/
def Aligned (f : Name → Name) (s s' : ExpandState) (count : Nat) : Prop :=
  ∀ k < count, f ⟨s.supply.interner.size + k⟩ = ⟨s'.supply.interner.size + k⟩

/-- Whatever `x` does in a state, `x'` does under the renaming `f` in every state where the names
that are added correspond; what is yielded is renamed by `g`, and the names in what is found are
those that `P` says. -/
def Mirrors {α α' : Type} (f : Name → Name) (P : Name → Prop) (g : α → α') (x : ExpandM α)
    (x' : ExpandM α') : Prop :=
  ∀ s, ∃ count new, Adds x s count new ∧ (∀ finding ∈ new, ∀ n ∈ finding.names, P n) ∧
    ∀ s', Aligned f s s' count →
      (x'.run s').1 = g (x.run s).1 ∧ Adds x' s' count (new.map (.rename f))

/-- A name made from a name is a name made from its text, so renaming the base matters only through
that text. -/
theorem run_freshFrom (base : Name) (s : ExpandState) :
    (ExpandM.freshFrom base).run s = (ExpandM.fresh (s.supply.interner.text base)).run s := by
  simp only [ExpandM.freshFrom, ExpandM.fresh, NameSupply.freshFrom, StateT.run_modifyGet]

namespace Mirrors

variable {α α' β β' γ : Type} {f : Name → Name} {P : Name → Prop} {g : α → α'} {x : ExpandM α}
  {x' : ExpandM α'}

theorem pure (g : α → α') (a : α) : Mirrors f P g (pure a) (pure (g a)) := fun s =>
  ⟨0, [], ⟨rfl, (List.append_nil _).symm⟩, by simp,
    fun s' _ => ⟨rfl, rfl, (List.append_nil _).symm⟩⟩

/-- **One step after another**: the second starts from what the first can yield. -/
theorem bind {h : β → β'} {y : α → ExpandM β} {y' : α' → ExpandM β'} (hx : Mirrors f P g x x')
    (hy : ∀ s, Mirrors f P h (y (x.run s).1) (y' (g (x.run s).1))) :
    Mirrors f P h (x >>= y) (x' >>= y') := by
  intro s
  obtain ⟨m, new₁, hadds₁, hP₁, hright₁⟩ := hx s
  obtain ⟨n, new₂, hadds₂, hP₂, hright₂⟩ := hy s (x.run s).2
  refine ⟨m + n, new₁ ++ new₂, ⟨?_, ?_⟩, ?_, fun s' hs' => ?_⟩
  · rw [run_bind_fst, hadds₂.size, hadds₁.size, Nat.add_assoc]
  · rw [run_bind_fst, hadds₂.findings, hadds₁.findings, List.append_assoc]
  · exact fun finding hmem => (List.mem_append.mp hmem).elim (hP₁ finding) (hP₂ finding)
  · obtain ⟨hyields₁, hadds₁'⟩ := hright₁ s' fun k hk => hs' k (by omega)
    have halign : Aligned f (x.run s).2 (x'.run s').2 n := fun k hk => by
      rw [hadds₁.size, hadds₁'.size, Nat.add_assoc, Nat.add_assoc]
      exact hs' (m + k) (by omega)
    obtain ⟨hyields₂, hadds₂'⟩ := hright₂ (x'.run s').2 halign
    rw [run_bind_fst, run_bind_fst, hyields₁]
    refine ⟨hyields₂, ?_, ?_⟩
    · rw [run_bind_fst, hyields₁, hadds₂'.size, hadds₁'.size, Nat.add_assoc]
    · rw [run_bind_fst, hyields₁, hadds₂'.findings, hadds₁'.findings, List.append_assoc,
        List.map_append]

theorem map {h : β → β'} {k : α → β} {k' : α' → β'} (hx : Mirrors f P g x x')
    (hk : ∀ a, k' (g a) = h (k a)) : Mirrors f P h (k <$> x) (k' <$> x') := by
  rw [map_eq_pure_bind, map_eq_pure_bind]
  refine hx.bind fun s => ?_
  rw [hk]
  exact pure h _

/-- A loop mirrors another if its turns do. -/
theorem mapM {h : β → β'} {i : γ → γ} {y : γ → ExpandM β} {y' : γ → ExpandM β'} :
    ∀ {l : List γ}, (∀ c ∈ l, Mirrors f P h (y c) (y' (i c))) →
      Mirrors f P (List.map h) (l.mapM y) ((l.map i).mapM y')
  | [], _ => pure (List.map h) []
  | c :: l, hl => by
    rw [List.map_cons, List.mapM_cons, List.mapM_cons]
    refine (hl c List.mem_cons_self).bind fun s => ?_
    refine (mapM fun c' hc' => hl c' (List.mem_cons_of_mem _ hc')).bind fun s' => ?_
    exact pure (List.map h) _

/-- Names that are generated correspond, whatever they are called. -/
theorem generated {x x' : ExpandM Name}
    (hx : ∀ s, ∃ hint, x.run s = (ExpandM.fresh hint).run s)
    (hx' : ∀ s, ∃ hint, x'.run s = (ExpandM.fresh hint).run s) : Mirrors f P f x x' := by
  have hone : ∀ {y : ExpandM Name} (s : ExpandState),
      (∃ hint, y.run s = (ExpandM.fresh hint).run s) →
        (y.run s).1 = ⟨s.supply.interner.size⟩ ∧ Adds y s 1 [] := by
    rintro y s ⟨hint, hy⟩
    refine ⟨?_, ?_, ?_⟩ <;> rw [hy]
    · exact (s.supply.fresh_spec hint).1
    · exact s.supply.size_fresh hint
    · exact (List.append_nil _).symm
  intro s
  obtain ⟨hname, hadds⟩ := hone s (hx s)
  refine ⟨1, [], hadds, by simp, fun s' hs' => ?_⟩
  obtain ⟨hname', hadds'⟩ := hone s' (hx' s')
  rw [hname, hname']
  exact ⟨(hs' 0 Nat.one_pos).symm, hadds'⟩

/-- A generated name is mirrored by the name generated from the same hint. -/
theorem fresh (hint : String) : Mirrors f P f (ExpandM.fresh hint) (ExpandM.fresh hint) :=
  generated (fun _ => ⟨hint, rfl⟩) fun _ => ⟨hint, rfl⟩

theorem freshFrom (base base' : Name) :
    Mirrors f P f (ExpandM.freshFrom base) (ExpandM.freshFrom base') :=
  generated (fun s => ⟨_, run_freshFrom base s⟩) fun s => ⟨_, run_freshFrom base' s⟩

/-- Nothing is done but to take findings down. -/
theorem write (g : α → α') (a : α) {new : List Finding}
    (h : ∀ finding ∈ new, ∀ n ∈ finding.names, P n) :
    Mirrors f P g (fun s => (a, { s with findings := s.findings ++ new }))
      (fun s => (g a, { s with findings := s.findings ++ new.map (.rename f) })) :=
  fun _ => ⟨0, new, ⟨rfl, rfl⟩, h, fun _ _ => ⟨rfl, rfl, rfl⟩⟩

end Mirrors

/-! ## 3. One member -/

/-- Renames what becomes of a member. -/
def Expansion.rename (f : Name → Name) : Expansion → Expansion
  | .replaced trees => .replaced (trees.map (.rename f))
  | e => e

section

variable {f : Name → Name} (hf : Function.Injective f) {P : Name → Prop} (v : Vocabulary)

namespace Extension

variable (e : Extension) (target : Target)

include hf in
theorem mirrors_stagedNames :
    Mirrors f P (.rename f) (e.stagedNames target)
      ((e.rename f).stagedNames (target.rename f)) := by
  have hevidence : Mirrors f P (List.map f)
      ((splitTypeParams e.method.tparams target).2.mapM fun _ => ExpandM.fresh "evidence")
      ((splitTypeParams (e.rename f).method.tparams (target.rename f)).2.mapM fun _ =>
        ExpandM.fresh "evidence") := by
    rw [e.splitTypeParams_method hf target]
    exact .mapM fun _ _ => .fresh "evidence"
  refine (Mirrors.freshFrom _ _).bind fun s₁ => ?_
  refine (Mirrors.fresh "c").bind fun s₂ => ?_
  refine (Mirrors.fresh "selfTree").bind fun s₃ => ?_
  exact hevidence.bind fun s₄ => .pure (StagedNames.rename f) _

include hf in
/-- Generation is mirrored; the names that its findings speak of must be among those that `P`
allows. -/
theorem mirrors_generate (h : ∀ finding ∈ e.findings, ∀ n ∈ finding.names, P n) :
    Mirrors f P (List.map (Tree.rename f)) (e.generate v target)
      ((e.rename f).generate (v.rename f) (target.rename f)) := by
  have hkind : (e.rename f).kind = e.kind := rfl
  unfold generate
  unfold findings at h
  rw [hkind]
  cases hk : e.kind with
  | staged =>
    refine (e.mirrors_stagedNames hf target).bind fun s => ?_
    rw [← rename_stagedTrees v hf]
    exact .pure (List.map (Tree.rename f)) _
  | runtime =>
    rw [hk] at h
    refine (Mirrors.freshFrom _ _).bind fun s₁ => ?_
    refine (Mirrors.write id () h).bind fun s₂ => ?_
    rw [← rename_runtimeTree v hf]
    exact .pure (List.map (Tree.rename f)) [_]

end Extension

include hf in
/-- So is the carrying out of a verdict, whichever it is. -/
theorem mirrors_carryOut {x : Verdict} (h : ∀ finding ∈ x.findings, ∀ n ∈ finding.names, P n) :
    Mirrors f P (.rename f) (x.carryOut v) ((x.rename f).carryOut (v.rename f)) := by
  have hfaults : ∀ faults : List Fault, (faults.map (.rename f)).map Finding.fault =
      (faults.map .fault).map (.rename f) := fun faults => by
    rw [List.map_map, List.map_map]
    rfl
  cases x with
  | keep remarks =>
    have hremarks : (remarks.map (.rename f)).map Finding.remark =
        (remarks.map .remark).map (.rename f) := by
      rw [List.map_map, List.map_map]
      rfl
    simp only [Verdict.rename, Verdict.carryOut, hremarks]
    exact .write (Expansion.rename f) .kept h
  | drop faults =>
    simp only [Verdict.rename, Verdict.carryOut, hfaults]
    exact .write (Expansion.rename f) .dropped h
  | extend spelling e target =>
    simp only [Verdict.findings, List.forall_mem_append] at h
    simp only [Verdict.rename, Verdict.carryOut, ExpandM.reportFaults, hfaults]
    refine (Mirrors.write id () h.1).bind fun s₁ => ?_
    refine (e.mirrors_generate hf v target h.2).bind fun s₂ => ?_
    exact .pure (Expansion.rename f) (.replaced _)

include hf in
/-- **A look at a member.** -/
theorem mirrors_expand (hv : ∀ n ∈ v.names, P n) (scope : Scope) {t : Tree}
    (ht : t.IsRecognised v.annotations → ∀ n ∈ t.names, P n) :
    Mirrors f P (.rename f) (expand v scope t) (expand (v.rename f) scope (t.rename f)) := by
  rw [expand_eq_carryOut, expand_eq_carryOut, judge_rename hf]
  exact mirrors_carryOut hf v (names_of_mem_findings_of_asks hv ht)

/-! ## 4. A unit -/

variable {v}

/-- The run on a tree goes the same under `f`. -/
def MirrorsUnit (f : Name → Name) (P : Name → Prop) (v : Vocabulary) (t : Tree) : Prop :=
  Mirrors f P (.rename f) (expandUnit v t) (expandUnit (v.rename f) (t.rename f))

theorem mirrors_expandMembers (scope : Scope) {ts : List Tree}
    (h : ∀ t ∈ ts, Mirrors f P (List.map (Tree.rename f)) (expandMemberIn v scope t)
      (expandMemberIn (v.rename f) scope (t.rename f))) :
    Mirrors f P (List.map (Tree.rename f)) (expandMembers v scope ts)
      (expandMembers (v.rename f) scope (ts.map (.rename f))) := by
  rw [expandMembers_eq, expandMembers_eq]
  exact (Mirrors.mapM h).map fun l => List.map_flatten.symm

variable (hv : ∀ n ∈ v.names, P n)
include hf hv

theorem mirrors_expandMemberIn (scope : Scope) {t : Tree} (ht : t.AsksOnly v P)
    (hin : MirrorsUnit f P v t)
    (hless : ∀ u : Tree, u.expansionDepth < t.expansionDepth → u.AsksOnly v P →
      MirrorsUnit f P v u) :
    Mirrors f P (List.map (Tree.rename f)) (expandMemberIn v scope t)
      (expandMemberIn (v.rename f) scope (t.rename f)) := by
  refine (mirrors_expand hf v hv scope (ht t .refl)).bind fun s => ?_
  cases hj : judge v scope t with
  | keep remarks =>
    rw [run_expand_of_keep hj]
    exact Mirrors.bind hin fun s' => .pure (List.map (Tree.rename f)) [_]
  | drop faults =>
    rw [run_expand_of_drop hj]
    exact .pure (List.map (Tree.rename f)) []
  | extend spelling e target =>
    have hy := e.yields_generate v target { s with findings := s.findings ++ spelling.map .fault }
    rw [run_expand_of_extend hj]
    refine .mapM fun u hu => ?_
    exact hless u (depth_lt_of_extend hj hy u hu) (asksOnly_of_extend hj hy ht u hu)

/-- **Two runs on a unit go the same.** -/
theorem mirrors_expandUnit {t : Tree} (ht : t.AsksOnly v P) : MirrorsUnit f P v t := by
  induction t using Tree.expansionInduction with
  | step t ihless ihchild =>
    have hslot : ∀ l ∈ t.slots, Mirrors f P (Slot.map (Tree.rename f)) (expandSlot v l)
        (expandSlot (v.rename f) (l.map (Tree.rename f))) := by
      intro l hl
      have hchild : ∀ c ∈ l.children, c ∈ t.shape.children := fun c hc =>
        Tree.mem_children_iff.mpr ⟨l, hl, hc⟩
      cases l with
      | one c =>
        have hc := hchild c (List.mem_singleton_self c)
        exact (ihchild c hc (ht.child hc)).map fun _ => rfl
      | members scope ms =>
        refine (mirrors_expandMembers scope fun m hm => ?_).map fun _ => rfl
        have hc := hchild m hm
        have hdepth := Tree.depth_child_le hc
        exact mirrors_expandMemberIn hf hv scope (ht.child hc) (ihchild m hc (ht.child hc))
          fun u hu => ihless u (by omega)
    intro s
    obtain ⟨houtline, hrun⟩ := run_expandUnit v t s
    obtain ⟨count, new, hadds, hP, hright⟩ := Mirrors.mapM hslot s
    refine ⟨count, new, ⟨?_, ?_⟩, hP, fun s' hs' => ?_⟩
    · rw [← hadds.size, hrun]
    · rw [← hadds.findings, hrun]
    · obtain ⟨hyields, hadds'⟩ := hright s' hs'
      let slots' := (t.slots.map (Slot.map (Tree.rename f))).mapM (expandSlot (v.rename f))
      have hrun' : (expandUnit (v.rename f) (t.rename f)).run s' =
          (((expandUnit v t).run s).1.rename f, (slots'.run s').2) := by
        refine run_expandUnit_eq (Tree.outline_rename f houtline) ?_
        rw [Tree.slots_rename, Tree.slots_rename]
        refine Prod.ext ?_ rfl
        rw [hyields, hrun]
      rw [hrun']
      exact ⟨rfl, by rw [← hadds'.size, hrun'], by rw [← hadds'.findings, hrun']⟩

end

/-- **The names in what a run yields** are those of the unit, words of the expander, and names that
the run has generated. -/
theorem names_expandUnit (v : Vocabulary) (t : Tree) (s : ExpandState) :
    let out := (expandUnit v t).run s
    ∀ n ∈ out.1.names,
      n ∈ t.names ∨ n ∈ v.names ∨ n ∈ s.supply.interner.gained out.2.supply.interner := by
  intro out
  -- change all other names: the run goes as it went
  obtain ⟨f, hf, hfix⟩ := exists_renaming_fixing
    (t.names ++ (v.names ++ s.supply.interner.gained out.2.supply.interner))
  have hin := fun n => (hfix n).mpr
  simp only [List.forall_mem_append] at hin
  obtain ⟨ht, hv, hgained⟩ := hin
  obtain ⟨count, new, hadds, -, hright⟩ := mirrors_expandUnit (v := v) hf (P := fun _ => True)
    (fun _ _ => trivial) (Tree.asksOnly_of_names (t := t) fun _ _ => trivial) s
  have halign : Aligned f s s count := fun k hk => by
    refine hgained _ (Interner.mem_gained.mpr ⟨?_, ?_⟩)
    · exact Nat.not_lt_of_le (Nat.le_add_right _ k)
    · rw [Interner.Knows, hadds.size]
      exact Nat.add_lt_add_left hk _
  have hself : out.1.rename f = out.1 := by
    have hyields := (hright s halign).1
    rw [Tree.rename_eq_self_iff.mpr ht, Vocabulary.rename_eq_self hv] at hyields
    exact hyields.symm
  intro n hn
  rw [← List.mem_append, ← List.mem_append, ← hfix]
  exact Tree.rename_eq_self_iff.mp hself n hn

end Enrich
