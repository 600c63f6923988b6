import Enrich.Proofs.Freshness
import Enrich.Session.Basic
/-!
# Expanding what was expanded

A unit that was expanded holds nothing to expand.  What was replaced or dropped is gone, and what
was kept is kept again for the same reason, so a second run returns the unit as it is, generates no
name, and repeats the remarks on what was kept and nothing else.

`Settles` says this of any two steps.  It passes through lists, slots and members, and the
induction along an expansion (`Tree.expansionInduction`) carries it through generated code.

* `settles_expandUnit`: the main statement for runs.
* `expandReports_again`: the main statement for sessions.
-/

namespace Enrich

/-! ## 1. Steps that settle what they yield -/

/-- Is it found in expanded code as well? -/
def Finding.isRepeated (f : Finding) : Bool := f.code = .notExpanded

/-- What `x` yields is left as it is by `again`, which finds what is repeated of the findings of
`x`, generates no name and does nothing else. -/
def Settles {α : Type} (x : ExpandM α) (again : α → ExpandM α) : Prop :=
  ∀ s, ∃ new, (x.run s).2.findings = s.findings ++ new ∧
    ∀ w, (again (x.run s).1).run w =
      ((x.run s).1, { w with findings := w.findings ++ new.filter Finding.isRepeated })

namespace Settles

variable {α β : Type}

/-- What settles its elements settles a list. -/
theorem mapM {f : α → ExpandM β} {again : β → ExpandM β} :
    ∀ {l : List α}, (∀ a ∈ l, Settles (f a) again) → Settles (l.mapM f) (·.mapM again)
  | [], _ => fun s => by
    refine ⟨[], (List.append_nil _).symm, fun w => ?_⟩
    rw [List.filter_nil, List.append_nil]
    rfl
  | a :: l, h => fun s => by
    obtain ⟨new₁, hf₁, hw₁⟩ := h a List.mem_cons_self s
    obtain ⟨new₂, hf₂, hw₂⟩ :=
      mapM (fun b hb => h b (List.mem_cons_of_mem _ hb)) ((f a).run s).2
    refine ⟨new₁ ++ new₂, ?_, fun w => ?_⟩
    · rw [run_mapM_cons, hf₂, hf₁, List.append_assoc]
    · rw [run_mapM_cons, run_mapM_cons, hw₁, hw₂]
      simp

/-- A step that settles a part settles what is made of the part alone. -/
theorem map {x : ExpandM α} {again : α → ExpandM α} {again' : β → ExpandM β} (g : α → β)
    (h : Settles x again) (hg : ∀ a, again' (g a) = g <$> again a) : Settles (g <$> x) again' := by
  intro s
  obtain ⟨new, hf, hw⟩ := h s
  refine ⟨new, hf, fun w => ?_⟩
  have hx : ((g <$> x).run s).1 = g (x.run s).1 := rfl
  rw [hx, hg]
  exact congrArg (fun p => (g p.1, p.2)) (hw w)

end Settles

/-! ## 2. Members -/

section

variable {v : Vocabulary} {scope : Scope} {t : Tree}

/-- Expanding inside a member that is kept does not change the verdict. -/
theorem judge_expandUnit {remarks : List Remark} (h : judge v scope t = .keep remarks)
    (s : ExpandState) : judge v scope ((expandUnit v t).run s).1 = .keep remarks :=
  judge_keep_of_head h (Tree.methodHead?_of_outline (run_expandUnit v t s).1)

/-- Members settle if each of them does. -/
theorem settles_expandMembers : ∀ {ts : List Tree},
    (∀ c ∈ ts, Settles (expandMemberIn v scope c) (expandMembers v scope)) →
      Settles (expandMembers v scope ts) (expandMembers v scope)
  | [], _ => fun s => by
    rw [expandMembers_nil]
    refine ⟨[], (List.append_nil _).symm, fun w => ?_⟩
    rw [run_pure_pair, expandMembers_nil, run_pure_pair, List.filter_nil, List.append_nil]
  | c :: ts, h => fun s => by
    obtain ⟨new₁, hf₁, hw₁⟩ := h c List.mem_cons_self s
    obtain ⟨new₂, hf₂, hw₂⟩ := settles_expandMembers
      (fun b hb => h b (List.mem_cons_of_mem _ hb)) ((expandMemberIn v scope c).run s).2
    refine ⟨new₁ ++ new₂, ?_, fun w => ?_⟩
    · simp only [run_expandMembers_cons, hf₂, hf₁, List.append_assoc]
    · simp only [run_expandMembers_cons, run_expandMembers_append, hw₁, hw₂]
      simp

theorem settles_of_keep {remarks : List Remark} (hj : judge v scope t = .keep remarks)
    (h : Settles (expandUnit v t) (expandUnit v)) :
    Settles (expandMemberIn v scope t) (expandMembers v scope) := by
  intro s
  obtain ⟨new, hf, hw⟩ := h { s with findings := s.findings ++ remarks.map .remark }
  have hrep : (remarks.map Finding.remark).filter Finding.isRepeated = remarks.map .remark := by
    rw [List.filter_eq_self]
    intro f hf
    obtain ⟨r, hr, rfl⟩ := List.mem_map.mp hf
    obtain ⟨name, span, rfl⟩ := remarks_of_keep hj r hr
    rfl
  refine ⟨remarks.map .remark ++ new, ?_, fun w => ?_⟩
  · rw [expandMemberIn, run_expandMember_of_keep _ _ _ hj, hf, List.append_assoc]
  · rw [expandMemberIn, run_expandMember_of_keep _ _ _ hj, run_expandMembers_cons,
      expandMembers_nil, expandMemberIn,
      run_expandMember_of_keep _ _ _ (judge_expandUnit hj _), hw]
    simp only [run_pure_pair, List.filter_append, hrep, List.append_assoc, List.append_nil]

/-- No fault is found twice. -/
theorem isRepeated_faults (faults : List Fault) :
    (faults.map Finding.fault).filter Finding.isRepeated = [] := by
  rw [List.filter_eq_nil_iff]
  intro f hf
  obtain ⟨fault, -, rfl⟩ := List.mem_map.mp hf
  cases fault <;> simp [Finding.isRepeated, Finding.code, Fault.code]

theorem settles_of_drop {faults : List Fault} (hj : judge v scope t = .drop faults) :
    Settles (expandMemberIn v scope t) (expandMembers v scope) := by
  intro s
  refine ⟨faults.map .fault, ?_, fun w => ?_⟩
  · rw [expandMemberIn, run_expandMember_of_drop _ _ _ hj]
  · rw [expandMemberIn, run_expandMember_of_drop _ _ _ hj, expandMembers_nil,
      isRepeated_faults, run_pure_pair, List.append_nil]

/-! ## 3. Generated code -/

/-- What is generated is no method, so nothing asks for an extension there. -/
theorem judge_of_yields {e : Extension} {target : Target} {trees : List Tree}
    (h : e.Yields v target trees) : ∀ u ∈ trees, judge v scope u = .keep [] := by
  intro u hu
  unfold Extension.Yields at h
  split at h
  · obtain ⟨names, rfl⟩ := h
    simp only [Extension.stagedTrees, List.mem_cons, List.not_mem_nil, or_false] at hu
    rcases hu with rfl | rfl
    · exact judge_of_not_method (by simp [wrapperClass, Tree.classDef, Tree.ofShape])
    · exact judge_of_not_method (by simp [Tree.objectDef, Tree.ofShape])
  · obtain ⟨group, rfl⟩ := h
    rw [List.mem_singleton.mp hu]
    exact judge_of_not_method
      (by simp [Extension.runtimeTree, wrapperClass, Tree.classDef, Tree.ofShape])

/-- Members in which nothing is to be found are expanded inside. -/
theorem run_expandMembers_of_silent : ∀ {ts : List Tree},
    (∀ u ∈ ts, judge v scope u = .keep []) → ∀ s : ExpandState,
      (expandMembers v scope ts).run s = (ts.mapM (expandUnit v)).run s
  | [], _ => fun s => by
    rw [expandMembers_nil]
    rfl
  | u :: ts, h => fun s => by
    have hu : (expandMemberIn v scope u).run s =
        ([((expandUnit v u).run s).1], ((expandUnit v u).run s).2) := by
      rw [expandMemberIn, run_expandMember_of_keep _ _ _ (h u List.mem_cons_self)]
      simp only [List.map_nil, List.append_nil]
    have hts := run_expandMembers_of_silent fun b hb => h b (List.mem_cons_of_mem _ hb)
    simp only [run_expandMembers_cons, run_mapM_cons, hu, hts, List.singleton_append]

/-- What is found while code is generated is not found again. -/
theorem isRepeated_findings (e : Extension) : e.findings.filter Finding.isRepeated = [] := by
  unfold Extension.findings
  split <;> rfl

theorem settles_of_extend {spelling : List Fault} {e : Extension} {target : Target}
    (hj : judge v scope t = .extend spelling e target)
    (h : ∀ u : Tree, u.expansionDepth < t.expansionDepth →
      Settles (expandUnit v u) (expandUnit v)) :
    Settles (expandMemberIn v scope t) (expandMembers v scope) := by
  intro s
  let s₁ : ExpandState := { s with findings := s.findings ++ spelling.map .fault }
  have hy := e.yields_generate v target s₁
  have hf₁ := e.findings_generate v target s₁
  -- generated code is kept by the second run, and the first run settles it
  have hcode : Settles (expandMembers v scope ((e.generate v target).run s₁).1)
      (expandMembers v scope) :=
    settles_expandMembers fun u hu =>
      settles_of_keep (judge_of_yields hy u hu) (h u (depth_lt_of_extend hj hy u hu))
  obtain ⟨new₂, hf₂, hw₂⟩ := hcode ((e.generate v target).run s₁).2
  have hrun : (expandMemberIn v scope t).run s =
      (expandMembers v scope ((e.generate v target).run s₁).1).run
        ((e.generate v target).run s₁).2 := by
    rw [expandMemberIn, run_expandMember_of_extend _ _ _ hj]
    exact (run_expandMembers_of_silent (judge_of_yields hy) _).symm
  refine ⟨spelling.map .fault ++ e.findings ++ new₂, ?_, fun w => ?_⟩
  · rw [hrun, hf₂, hf₁]
    simp only [s₁, List.append_assoc]
  · rw [hrun, hw₂, List.filter_append, List.filter_append, isRepeated_findings,
      isRepeated_faults]
    simp only [List.nil_append]

end

/-! ## 4. Units -/

section

variable (v : Vocabulary)

theorem settles_expandMemberIn {v : Vocabulary} (scope : Scope) {t : Tree}
    (hin : Settles (expandUnit v t) (expandUnit v))
    (hless : ∀ u : Tree, u.expansionDepth < t.expansionDepth →
      Settles (expandUnit v u) (expandUnit v)) :
    Settles (expandMemberIn v scope t) (expandMembers v scope) := by
  cases hj : judge v scope t with
  | keep remarks => exact settles_of_keep hj hin
  | drop faults => exact settles_of_drop hj
  | extend spelling e target => exact settles_of_extend hj hless

/-- **A run settles the unit it yields.** -/
theorem settles_expandUnit (t : Tree) : Settles (expandUnit v t) (expandUnit v) := by
  induction t using Tree.expansionInduction with
  | step t ihless ihchild =>
    have hslot : ∀ l ∈ t.slots, Settles (expandSlot v l) (expandSlot v) := by
      intro l hl
      have hin : ∀ c ∈ l.children, Settles (expandUnit v c) (expandUnit v) := by
        intro c hc
        exact ihchild c (Tree.mem_children_iff.mpr ⟨l, hl, hc⟩)
      cases l with
      | one c =>
        have hc := hin c (List.mem_singleton_self c)
        exact hc.map Slot.one fun _ => rfl
      | members scope ms =>
        refine Settles.map (Slot.members scope) (settles_expandMembers fun c hc => ?_) fun _ => rfl
        refine settles_expandMemberIn scope (hin c hc) fun u hu => ihless u ?_
        have := Tree.depth_child_le (Tree.mem_children_iff.mpr ⟨_, hl, hc⟩)
        omega
    intro s
    obtain ⟨new, hf, hw⟩ := Settles.mapM hslot s
    obtain ⟨-, hs⟩ := run_expandUnit v t s
    rw [hs] at hf hw
    exact ⟨new, hf, fun w => run_expandUnit_eq rfl (hw w)⟩

end

/-! ## 5. Sessions -/

namespace Session

/-- **A second run finds nothing to do.**  On the unit that a first run returned, with the interner
it left, it returns the same unit and the same interner, generates no name, and reports what was
not expanded, as the first run did, and nothing else. -/
theorem expandReports_again (s : Session) (t : Tree) :
    let first := s.expandReports t
    let again : Session := { s with interner := first.2.2 }
    again.expandReports first.1 =
        (first.1, first.2.1.filter (·.code = .notExpanded), first.2.2) ∧
      let v := ((Vocabulary.intern s.config.toOptions).run first.2.2).1
      let supply : NameSupply := { interner := first.2.2 }
      ((expandUnit v first.1).run { supply }).2.supply = supply := by
  rcases hv : (Vocabulary.intern s.config.toOptions).run s.interner with ⟨v, i⟩
  rcases hr : (expandUnit v t).run { supply := { interner := i } } with ⟨t', supply, new⟩
  have hgrown : supply.interner.Extends i := by
    have := extends_expandUnit v t { supply := { interner := i } }
    rwa [hr] at this
  -- the words are known to the interner that the first run leaves, so they are given the same names
  have hv' : (Vocabulary.intern s.config.toOptions).run supply.interner = (v, supply.interner) := by
    have hagain := (Vocabulary.interns_intern s.config.toOptions).again s.interner supply.interner
    rw [hv] at hagain
    exact hagain hgrown
  have hr' : (expandUnit v t').run { supply := { interner := supply.interner } } =
      (t', { supply := { interner := supply.interner }
             findings := new.filter Finding.isRepeated }) := by
    obtain ⟨found, hfound, hsettled⟩ := settles_expandUnit v t { supply := { interner := i } }
    rw [hr] at hfound hsettled
    rw [show new = found from hfound]
    exact hsettled _
  have hreports : ∀ names i, (new.filter Finding.isRepeated).map (·.diagnostic names i) =
      (new.map (·.diagnostic names i)).filter (·.code = .notExpanded) := by
    intro names i
    rw [List.filter_map]
    refine congrArg (List.map _) (List.filter_congr fun f _ => ?_)
    simp only [Function.comp_apply, Finding.diagnostic_code, Finding.isRepeated]
  have hfirst := expandReports_of_run hv hr
  have hagain := expandReports_of_run (s := { s with interner := supply.interner }) hv' hr'
  simp only [hfirst, hagain, hreports, hv', hr', and_self]

end Session

end Enrich
