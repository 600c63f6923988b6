import Enrich.Proofs.Bindings
import Enrich.Proofs.Reaching
/-!
# When a quoted body shadows the receiver

The body of a staged extension is checked for declarations of reserved names, spliced, quoted and
expanded, in this order.  The check does not know what the expansion puts into the quotation.  An
extension inside the body becomes a wrapper class there, the constructor of the wrapper class
declares the receiver, and the references to the receiver in it have been spliced already.

* `expandsInside_iff_runs`: an extension is expanded inside a tree if and only if a run on it comes
  to one.
* `companionBody_of_extend`: what is in the quotation is the spliced body, expanded.
* `redeclarations_companionBody_iff`: the main statement.
-/

namespace Enrich

/-! ## 1. What is expanded inside -/

section

variable {v : Vocabulary}

theorem Runs.trans {t u w : Tree} {s s' s'' : ExpandState} (h : Runs v t s u s')
    (h' : Runs v u s' w s'') : Runs v t s w s'' := by
  induction h' with
  | refl => exact h
  | child _ hslot ih => exact ih.child hslot
  | kept _ hm hj ih => exact ih.kept hm hj
  | generated _ hm hj hcode ih => exact ih.generated hm hj hcode

theorem expandsInside_of_reachesSlot {t c : Tree} {s s' : ExpandState}
    (h : ReachesSlot v t s (.one c) s') (hc : c.expandsInside v = true) :
    t.expandsInside v = true := by
  obtain ⟨before, after, hslots, -⟩ := h
  rw [Tree.expandsInside_eq, List.any_eq_true]
  exact ⟨.one c, by simp [hslots], hc⟩

theorem expandsInside_of_reachesMember {t m : Tree} {s s' : ExpandState} {scope : Scope}
    (h : ReachesMember v t s scope m s')
    (hm : (judge v scope m).meets (m.expandsInside v) = true) : t.expandsInside v = true := by
  obtain ⟨before, after, s₁, ⟨slots, slots', hslots, -⟩, -⟩ := h
  rw [Tree.expandsInside_eq, List.any_eq_true]
  refine ⟨.members scope (before ++ m :: after), by simp [hslots], ?_⟩
  simp only [Slot.map, Slot.meets, List.any_map, List.any_eq_true]
  exact ⟨m, by simp, hm⟩

/-- A run comes to an extension only if there is one inside. -/
theorem expandsInside_of_runs {t u : Tree} {s s' : ExpandState} (h : Runs v t s u s')
    (hu : u.expandsInside v = true) : t.expandsInside v = true := by
  induction h with
  | refl => exact hu
  | child _ hslot ih => exact ih (expandsInside_of_reachesSlot hslot hu)
  | kept _ hm hj ih => exact ih (expandsInside_of_reachesMember hm (by rw [hj]; exact hu))
  | generated _ hm hj _ ih => exact ih (expandsInside_of_reachesMember hm (by rw [hj]; rfl))

/-- If there is one inside, a run comes to it. -/
theorem exists_runs_of_expandsInside {t : Tree} (h : t.expandsInside v = true) (s : ExpandState) :
    ∃ u s' scope m s₁ spelling e target, Runs v t s u s' ∧ ReachesMember v u s' scope m s₁ ∧
      judge v scope m = .extend spelling e target := by
  induction t using Tree.induction generalizing s with
  | step t _ ih =>
    obtain ⟨l, hl, hmeets⟩ := List.any_eq_true.mp (Tree.expandsInside_eq v t ▸ h)
    obtain ⟨slots, slots', hslots⟩ := List.append_of_mem hl
    have hslot : ReachesSlot v t s l ((slots.mapM (expandSlot v)).run s).2 :=
      ⟨slots, slots', hslots, rfl⟩
    cases l with
    | one c =>
      have hc : c ∈ t.shape.children :=
        Tree.mem_children_iff.mpr ⟨_, hl, List.mem_singleton_self c⟩
      obtain ⟨u, s', scope, m, s₁, spelling, e, target, hruns, hm, hj⟩ := ih c hc hmeets _
      exact ⟨u, s', scope, m, s₁, spelling, e, target, (Runs.refl.child hslot).trans hruns, hm, hj⟩
    | members scope ms =>
      simp only [Slot.map, Slot.meets, List.any_map, List.any_eq_true] at hmeets
      obtain ⟨c, hcms, hcm⟩ := hmeets
      have hc : c ∈ t.shape.children := Tree.mem_children_iff.mpr ⟨_, hl, hcms⟩
      obtain ⟨before, after, rfl⟩ := List.append_of_mem hcms
      have hmember : ReachesMember v t s scope c _ := ⟨before, after, _, hslot, rfl⟩
      rw [Function.comp_apply] at hcm
      cases hj : judge v scope c with
      | keep remarks =>
        rw [hj] at hcm
        obtain ⟨u, s', scope', m, s₁, spelling, e, target, hruns, hm, hj'⟩ := ih c hc hcm _
        exact ⟨u, s', scope', m, s₁, spelling, e, target,
          (Runs.refl.kept hmember hj).trans hruns, hm, hj'⟩
      | drop faults =>
        rw [hj] at hcm
        contradiction
      | extend spelling e target =>
        exact ⟨t, s, scope, c, _, spelling, e, target, .refl, hmember, hj⟩

/-- **An extension is expanded inside a tree if and only if a run on it comes to one.** -/
theorem expandsInside_iff_runs {t : Tree} (s : ExpandState) :
    t.expandsInside v = true ↔ ∃ u s' scope m s₁ spelling e target, Runs v t s u s' ∧
      ReachesMember v u s' scope m s₁ ∧ judge v scope m = .extend spelling e target := by
  constructor
  · exact fun h => exists_runs_of_expandsInside h s
  · rintro ⟨u, s', scope, m, s₁, spelling, e, target, hruns, hm, hj⟩
    exact expandsInside_of_runs hruns (expandsInside_of_reachesMember hm (by rw [hj]; rfl))

end

/-! ## 2. The quoted body of a generator -/

namespace Tree

/-- The code in the quotation that a block ends in. -/
def quotedResult? (t : Tree) : Option Tree :=
  match t.shape with
  | .block _ result =>
    match result.shape with
    | .quote inner => some inner
    | _ => none
  | _ => none

/-- The name of the one method of a companion, and the code in the quotation that its body ends
in. -/
def companionBody? (t : Tree) : Option (Name × Tree) :=
  match t.shape with
  | .objectDef d =>
    match d.body with
    | [m] =>
      match m.shape with
      | .methodDef g => g.body.quotedResult?.map (g.name, ·)
      | _ => none
    | _ => none
  | _ => none

end Tree

section

variable {v : Vocabulary} {t : Tree} {s : ExpandState}

theorem shape_expandUnit_quote {inner : Tree} (h : t.shape = .quote inner) :
    ∃ s₁, ((expandUnit v t).run s).1.shape = .quote ((expandUnit v inner).run s₁).1 := by
  refine ⟨s, ?_⟩
  have hrun := run_expandUnit_eq (v := v) (t := t) (s := s)
    (u := ⟨.quote ((expandUnit v inner).run s).1, t.span, t.ty⟩)
    (by rw [Tree.outline, Tree.outline, h]; rfl) (by rw [Tree.slots, h]; rfl)
  rw [hrun]

theorem shape_expandUnit_block {stats : List Tree} {result : Tree}
    (h : t.shape = .block stats result) :
    ∃ stats' s₁, ((expandUnit v t).run s).1.shape =
      .block stats' ((expandUnit v result).run s₁).1 := by
  let first := (expandMembers v .enclosed stats).run s
  refine ⟨first.1, first.2, ?_⟩
  have hrun := run_expandUnit_eq (v := v) (t := t) (s := s)
    (u := ⟨.block first.1 ((expandUnit v result).run first.2).1, t.span, t.ty⟩)
    (by rw [Tree.outline, Tree.outline, h]; rfl) (by rw [Tree.slots, h]; rfl)
  rw [hrun]

theorem shape_expandUnit_objectDef {d : ObjectDef Tree Tree} (h : t.shape = .objectDef d) :
    ((expandUnit v t).run s).1.shape =
      .objectDef { d with body := ((expandMembers v .container d.body).run s).1 } := by
  have hrun := run_expandUnit_eq (v := v) (t := t) (s := s)
    (u := ⟨.objectDef { d with body := ((expandMembers v .container d.body).run s).1 },
      t.span, t.ty⟩)
    (by rw [Tree.outline, Tree.outline, h]; rfl) (by rw [Tree.slots, h]; rfl)
  rw [hrun]

theorem shape_expandUnit_methodDef {d : MethodDef Tree Tree} (h : t.shape = .methodDef d) :
    ∃ d' s₁, ((expandUnit v t).run s).1.shape = .methodDef d' ∧ d'.name = d.name ∧
      d'.body = ((expandUnit v d.body).run s₁).1 := by
  obtain ⟨hout, hslots⟩ := run_expandUnit v t s
  have hhead : ((expandUnit v t).run s).1.methodHead? = some (d.mods, d.name) :=
    (Tree.methodHead?_of_outline hout).trans (Tree.methodHead?_eq_some_iff.mpr ⟨d, h, rfl, rfl⟩)
  obtain ⟨d', hd', -, hname⟩ := Tree.methodHead?_eq_some_iff.mp hhead
  -- the body is the last slot before and after
  have hlast : ∀ {u : Tree} {d : MethodDef Tree Tree}, u.shape = .methodDef d →
      u.slots = (d.params.flatMap ValueDef.children ++ d.result.toList).map Slot.one ++
        [.one d.body] := by
    intro u d hu
    rw [Tree.slots, hu]
    simp [Shape.slots, Shape.children, MethodDef.children]
  rw [hlast h, run_mapM_append, run_mapM_cons, hlast hd', Prod.mk.injEq] at hslots
  have hbody := congrArg List.getLast? hslots.1
  rw [List.mapM_nil, run_pure_pair, List.getLast?_concat, List.getLast?_concat] at hbody
  exact ⟨d', _, hd', hname, (Slot.one.inj (Option.some.inj hbody)).symm⟩

/-- A method without annotations is kept. -/
theorem judge_of_no_annotations {scope : Scope} {d : MethodDef Tree Tree}
    (h : t.shape = .methodDef d) (hd : d.mods.annotations = []) : judge v scope t = .keep [] := by
  unfold judge
  rw [h]
  simp only [hd]
  rfl

/-- A companion keeps the one method that it has, and the quotation that it ends in. -/
theorem companionBody?_expandUnit {d : ObjectDef Tree Tree} {m : Tree} {g : MethodDef Tree Tree}
    {stats : List Tree} {q inner : Tree} (h : t.shape = .objectDef d) (hd : d.body = [m])
    (hm : m.shape = .methodDef g) (hg : g.mods.annotations = [])
    (hbody : g.body.shape = .block stats q) (hq : q.shape = .quote inner) :
    ∃ s₁, ((expandUnit v t).run s).1.companionBody? =
      some (g.name, ((expandUnit v inner).run s₁).1) := by
  have hmembers : ((expandMembers v .container d.body).run s).1 = [((expandUnit v m).run s).1] := by
    rw [hd, run_expandMembers_cons, expandMembers_nil, expandMemberIn,
      run_expandMember_of_keep _ _ _ (judge_of_no_annotations hm hg)]
    simp only [List.map_nil, List.append_nil]
    rfl
  obtain ⟨g', s₁, hg', hname, hbody'⟩ := shape_expandUnit_methodDef (v := v) (s := s) hm
  obtain ⟨stats', s₂, hblock⟩ := shape_expandUnit_block (v := v) (s := s₁) hbody
  obtain ⟨s₃, hquote⟩ := shape_expandUnit_quote (v := v) (s := s₂) hq
  have hresult : g'.body.quotedResult? = some ((expandUnit v inner).run s₃).1 := by
    simp only [Tree.quotedResult?, hbody', hblock, hquote]
  refine ⟨s₃, ?_⟩
  simp only [Tree.companionBody?, shape_expandUnit_objectDef h, hmembers, hg', hname, hresult,
    Option.map_some]

/-! ## 3. The main statement -/

/-- What takes the place of a staged extension with a raw body: a wrapper class and a companion, and
in the quotation of the companion the spliced body, expanded. -/
theorem companionBody_of_extend {m : Tree} {scope : Scope} {spelling : List Fault} {e : Extension}
    {target : Target} (hj : judge v scope m = .extend spelling e target) (hk : e.kind = .staged)
    (hraw : e.hasStagedBody = false) (s : ExpandState) :
    ∃ wrapper companion s₁, ((expandMemberIn v scope m).run s).1 = [wrapper, companion] ∧
      companion.companionBody? = some (e.method.name,
        ((expandUnit v (e.method.body.spliceReserved (e.reserved v))).run s₁).1) := by
  let s₁ : ExpandState := { s with findings := s.findings ++ spelling.map .fault }
  have hy := e.yields_generate v target s₁
  simp only [Extension.Yields, hk] at hy
  obtain ⟨names, hnames⟩ := hy
  have hquote : (e.generatedBody v).shape =
      .quote (e.method.body.spliceReserved (e.reserved v)) := by
    rw [Extension.generatedBody, hraw]
    rfl
  -- whatever state the run on the companion starts from
  have hcompanion : ∀ s, ∃ s₂, ((expandUnit v (.objectDef
      { mods := {}, name := names.group, body := [.methodDef (e.generator v target names) e.span] }
      e.span)).run s).1.companionBody? = some (e.method.name,
        ((expandUnit v (e.method.body.spliceReserved (e.reserved v))).run s₂).1) := fun s =>
    companionBody?_expandUnit (g := e.generator v target names) (q := e.generatedBody v)
      rfl rfl rfl rfl rfl hquote
  rw [expandMemberIn, run_expandMember_of_extend _ _ _ hj]
  dsimp only
  rw [hnames, Extension.stagedTrees, run_mapM_cons, run_mapM_cons]
  obtain ⟨s₂, hbody⟩ := hcompanion _
  exact ⟨_, _, s₂, rfl, hbody⟩

/-- The receiver is one of the reserved names. -/
theorem ReservedNames.contains_selfName {α β : Type} (selfName : Name) (d : MethodDef α β) :
    (ofMethod selfName d).contains selfName = true := by
  -- each parameter is put behind the names that are there
  have hkeeps : ∀ (ps : List (ValueDef α β)) (ns : List Name), selfName ∈ ns →
      selfName ∈ ps.foldl (fun ns p => if ns.contains p.name then ns else ns ++ [p.name]) ns := by
    intro ps
    induction ps with
    | nil => exact fun _ h => h
    | cons p ps ih =>
      intro ns h
      rw [List.foldl_cons]
      refine ih _ ?_
      split
      · exact h
      · exact List.mem_append_left _ h
  exact List.contains_iff_mem.mpr (hkeeps _ _ (List.mem_singleton_self _))

/-- A staged extension that nothing speaks against declares no reserved name in a raw body. -/
theorem Extension.redeclarations_of_faults {e : Extension} (hk : e.kind = .staged)
    (hraw : e.hasStagedBody = false) (h : e.faults v = []) :
    e.method.body.redeclarations (e.reserved v) = [] := by
  have hmethod : e.methodFaults v = [] := by
    rw [faults, hk] at h
    exact (List.append_eq_nil_iff.mp h).2
  rw [methodFaults, hraw] at hmethod
  exact List.map_eq_nil_iff.mp (List.append_eq_nil_iff.mp hmethod).2

/-- **A quoted body shadows the receiver if and only if an extension is expanded in it.**  For every
staged extension with a raw body that a run on a unit comes to: its companion is part of the
output, and the body in the quotation of its generator declares no reserved name exactly if there
is no extension to expand inside the body that was written. -/
theorem redeclarations_companionBody_iff {t u m : Tree} {s s' s₁ : ExpandState} {scope : Scope}
    {spelling : List Fault} {e : Extension} {target : Target} (hruns : Runs v t s u s')
    (hm : ReachesMember v u s' scope m s₁) (hj : judge v scope m = .extend spelling e target)
    (hk : e.kind = .staged) (hraw : e.hasStagedBody = false) :
    ∃ wrapper companion body, ((expandMemberIn v scope m).run s₁).1 = [wrapper, companion] ∧
      ((expandUnit v t).run s).1.Contains companion ∧
      companion.companionBody? = some (e.method.name, body) ∧
      (body.redeclarations (e.reserved v) = [] ↔ e.method.body.expandsInside v = false) := by
  obtain ⟨wrapper, companion, s₂, hout, hbody⟩ := companionBody_of_extend hj hk hraw s₁
  obtain ⟨-, -, -, -, -, -, hfaults⟩ := judge_extend hj
  have hcontains : ((expandUnit v t).run s).1.Contains companion :=
    contains_of_reachesMember hruns hm companion (by rw [hout]; simp)
  refine ⟨wrapper, companion, _, hout, hcontains, hbody, ?_⟩
  rw [← Tree.expandsInside_spliceReserved (r := e.reserved v)]
  constructor
  · intro hnone
    rw [Tree.redeclarations_eq_nil_iff] at hnone
    refine Bool.eq_false_iff.mpr fun hinside => ?_
    obtain ⟨b, hb, hname⟩ := exists_selfName_of_expandsInside hinside s₂
    have hreserved : (e.reserved v).contains v.selfName = true :=
      ReservedNames.contains_selfName v.selfName e.method
    rw [← hname, hnone b hb] at hreserved
    contradiction
  · intro hinside
    -- the check was passed, and splicing and expanding declare nothing new
    have hchecked : e.method.body.redeclarations (e.reserved v) = [] :=
      e.redeclarations_of_faults hk hraw hfaults
    rw [← Tree.redeclarations_spliceReserved (r := e.reserved v),
      Tree.redeclarations_eq_nil_iff] at hchecked
    rw [Tree.redeclarations_eq_nil_iff]
    exact fun b hb => hchecked b (mem_bindings_of_expandUnit hinside s₂ b hb)

/-- A runtime extension inside a staged one.  The quoted body declares the receiver, which the body
that was written does not. -/
theorem redeclarations_companionBody_nested :
    let v := Vocabulary.usual
    let tpe := Tree.typeIdent v.list .nowhere
    let self := Tree.ident v.selfName .nowhere
    let inner := Tree.extensionDef v.annotations.runtime v.tree tpe (some tpe) self .nowhere
    let outer := Tree.extensionDef v.annotations.staged v.apply tpe (some tpe)
      (.block [inner] self .nowhere) .nowhere
    let unit := Tree.objectDef { mods := {}, name := v.expr, body := [outer] } .nowhere
    let s : ExpandState := { supply := { interner := .new } }
    ∃ companion body, ((expandUnit v unit).run s).1.Contains companion ∧
      companion.companionBody? = some (v.apply, body) ∧
      body.redeclarations ⟨[v.selfName]⟩ ≠ [] := by
  intro v tpe self inner outer unit s
  have hm : ReachesMember v unit s .container outer s := ⟨[], [], s, ⟨[], [], rfl, rfl⟩, rfl⟩
  obtain ⟨_, companion, body, -, hcontains, hbody, hnone⟩ :=
    redeclarations_companionBody_iff .refl hm rfl rfl rfl
  have hinside : (Tree.block [inner] self .nowhere).expandsInside v = true := rfl
  refine ⟨companion, body, hcontains, hbody, fun h => ?_⟩
  exact Bool.false_ne_true ((hnone.mp h).symm.trans hinside)

end

end Enrich
