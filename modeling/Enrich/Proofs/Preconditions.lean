import Enrich.Proofs.Looks
/-!
# Every failed precondition is reported, and none is invented

Three things can speak against an extension: its target is no type, it is staged and declares no
result, or it is staged and its body declares a reserved name.  They are independent of one another
and each is reported, in this order.  The code of an extension is generated exactly if there is
nothing to report, so an extension with a report leaves neither code nor names.

What is reported is told by `Diagnostic.mark`, the code of a report and the places it points to,
whatever its words.

* `Finding.mark_diagnostic`: the marks of findings, read off their causes.
* `Extension.run_synthesize_of_sound`: what synthesis does where nothing speaks against it.
* `synthesize_reports`: the main statement.
-/

namespace Enrich

/-! ## 1. Where reports point -/

/-- The code of a report, and a place for each of its labels; `true` stands with the place of a
primary label. -/
abbrev Mark := Code × List (Span × Bool)

/-- The code of a diagnostic and the places it points to. -/
def Diagnostic.mark (d : Diagnostic) : Mark := (d.code, d.labels.map fun l => (l.span, l.isPrimary))

/-- The mark of the words of a fault. -/
def Fault.mark : Fault → Mark
  | .malformed _ span => (.annotationArity, [(span, true)])
  | .several _ span annotations =>
    (.severalAnnotations, (span, true) :: annotations.map (·, false))
  | .oldSpelling span _ => (.deprecatedSpelling, [(span, true)])
  | .targetNotHandled _ span => (.targetNotHandled, [(span, true)])
  | .missingResult _ span => (.missingResultType, [(span, true)])
  | .redeclared b => (.redeclaredName, [(b.span, true)])

/-- The mark of the words of a remark. -/
def Remark.mark : Remark → Mark
  | .runtimeWrapper _ span => (.runtimeWrapper, [(span, true)])
  | .notExpanded _ span => (.notExpanded, [(span, true)])

/-- The mark of the words of a finding. -/
def Finding.mark : Finding → Mark
  | .fault f => f.mark
  | .remark r => r.mark

section

variable (names : AnnotationNames) (i : Interner)

@[simp] theorem Fault.mark_diagnostic (f : Fault) : (f.diagnostic names i).mark = f.mark := by
  cases f <;> simp [Fault.diagnostic, Diagnostic.mark, mark, Fault.code, Label.primary,
    Label.secondary, Function.comp_def]

@[simp] theorem Remark.mark_diagnostic (r : Remark) : (r.diagnostic i).mark = r.mark := by
  cases r <;> rfl

@[simp] theorem Finding.mark_diagnostic (f : Finding) : (f.diagnostic names i).mark = f.mark := by
  cases f with
  | fault f => exact f.mark_diagnostic names i
  | remark r => exact r.mark_diagnostic i

theorem map_mark_diagnostic (found : List Finding) :
    (found.map (Finding.diagnostic names i)).map Diagnostic.mark = found.map Finding.mark := by
  rw [List.map_map]
  exact List.map_congr_left fun f _ => f.mark_diagnostic names i

/-- Faults in words are errors, at the places the faults tell. -/
theorem reports_of_faults (faults : List Fault) :
    let reports := (faults.map Finding.fault).map (Finding.diagnostic names i)
    (reports.filter Diagnostic.isError).map Diagnostic.mark = faults.map Fault.mark ∧
      reports.filter (fun d => !d.isError) = [] := by
  intro reports
  have herror : ∀ d ∈ reports, d.isError = true := by
    intro d hd
    obtain ⟨f, hf, rfl⟩ := List.mem_map.mp hd
    obtain ⟨fault, -, rfl⟩ := List.mem_map.mp hf
    exact fault.diagnostic_isError names i
  constructor
  · rw [List.filter_eq_self.mpr herror, map_mark_diagnostic, List.map_map]
    rfl
  · exact List.filter_eq_nil_iff.mpr fun d hd => by simp [herror d hd]

/-- There is no error for an extension that is expanded, and a warning exactly if it is a runtime
extension. -/
theorem reports_of_findings (e : Extension) :
    let reports := e.findings.map (Finding.diagnostic names i)
    reports.filter Diagnostic.isError = [] ∧
      (reports.filter fun d => !d.isError).map Diagnostic.mark =
        match e.kind with
        | .staged => []
        | .runtime => [(.runtimeWrapper, [(e.span, true)])] := by
  intro reports
  simp only [reports, Extension.findings]
  cases e.kind <;> exact ⟨rfl, rfl⟩

end

/-! ## 2. What fails -/

namespace Extension

/-- The errors that an extension calls for: one if its target is no type; and if it is staged, one
if its result is not declared, and one for each declaration of a reserved name in a body that is
still to be quoted. -/
def failures (v : Vocabulary) (e : Extension) : List Mark :=
  (match e.payload.asTarget? with
    | .ok _ => []
    | .error bad => [(.targetNotHandled, [(bad.span, true)])]) ++
  match e.kind with
  | .runtime => []
  | .staged =>
    (if e.method.result = none then [(.missingResultType, [(e.span, true)])] else []) ++
    if e.method.mods.flags.isDeferred = true ∨ e.method.body.kind = .quote then []
    else (e.method.body.redeclarations (.ofMethod v.selfName e.method)).map fun b =>
      (.redeclaredName, [(b.span, true)])

section

variable {v : Vocabulary} {e : Extension}

theorem hasStagedBody_iff : e.hasStagedBody = true ↔
    e.method.mods.flags.isDeferred = true ∨ e.method.body.kind = .quote := by
  simp [hasStagedBody]

/-- **The faults that are found are those that are called for.** -/
theorem map_mark_faults (v : Vocabulary) (e : Extension) :
    (e.faults v).map Fault.mark = e.failures v := by
  have htarget : e.targetFaults.map Fault.mark =
      match e.payload.asTarget? with
      | .ok _ => []
      | .error bad => [(.targetNotHandled, [(bad.span, true)])] := by
    unfold targetFaults
    cases e.payload.asTarget? <;> rfl
  rw [faults, failures, List.map_append, htarget]
  congr 1
  cases e.kind with
  | runtime => rfl
  | staged =>
    rw [methodFaults, List.map_append]
    congr 1
    · cases e.method.result <;> rfl
    · by_cases hstaged : e.hasStagedBody = true
      · rw [if_pos hstaged, if_pos (hasStagedBody_iff.mp hstaged)]
        rfl
      · rw [if_neg hstaged, if_neg (hstaged ∘ hasStagedBody_iff.mpr), List.map_map]
        rfl

theorem failures_eq_nil_iff : e.failures v = [] ↔ e.faults v = [] := by
  rw [← map_mark_faults, List.map_eq_nil_iff]

/-- An extension that nothing speaks against has a target, and its code is generated. -/
theorem run_synthesize_of_sound (h : e.faults v = []) (s : ExpandState) :
    ∃ target, e.payload.asTarget? = .ok target ∧
      (e.synthesize v).run s =
        (some ((e.generate v target).run s).1, ((e.generate v target).run s).2) := by
  cases ht : e.payload.asTarget? with
  | error bad => exact absurd h (faults_ne_nil_of_error ht)
  | ok target =>
    refine ⟨target, rfl, ?_⟩
    rw [synthesize_of_ok ht h]
    rfl

/-- The code of an extension is generated exactly if nothing speaks against it. -/
theorem run_synthesize_eq_none_iff (s : ExpandState) :
    ((e.synthesize v).run s).1 = none ↔ e.faults v ≠ [] := by
  constructor
  · intro hnone hsound
    obtain ⟨target, -, hrun⟩ := run_synthesize_of_sound hsound s
    rw [hrun] at hnone
    contradiction
  · intro hfaults
    rw [synthesize_of_faults hfaults]

/-- What a synthesis yields is generated, for an extension that nothing speaks against. -/
theorem exists_generate_of_synthesize {s : ExpandState} {trees : List Tree}
    (h : ((e.synthesize v).run s).1 = some trees) :
    ∃ target, e.payload.asTarget? = .ok target ∧ ((e.generate v target).run s).1 = trees := by
  by_cases hsound : e.faults v = []
  · obtain ⟨target, htarget, hrun⟩ := run_synthesize_of_sound hsound s
    rw [hrun] at h
    exact ⟨target, htarget, Option.some.inj h⟩
  · rw [(run_synthesize_eq_none_iff s).mpr hsound] at h
    contradiction

end

end Extension

/-! ## 3. The main statement -/

/-- **Every failed precondition is reported, and none is invented.**  The errors of a synthesis are
those that the extension calls for, in order.  It yields nothing exactly if there are any, and then
there is no warning, no name is generated and nothing is interned.  If there are none, there is a
warning exactly for a runtime extension. -/
theorem synthesize_reports (v : Vocabulary) (e : Extension) (s : ExpandState)
    (names : AnnotationNames) (i : Interner) :
    let run := (e.synthesize v).run s
    ∃ found, run.2.findings = s.findings ++ found ∧
      let reports := found.map (Finding.diagnostic names i)
      let errors := reports.filter Diagnostic.isError
      let warnings := reports.filter fun d => !d.isError
      errors.map Diagnostic.mark = e.failures v ∧
      (run.1 = none ↔ e.failures v ≠ []) ∧
      (run.1 = none → warnings = [] ∧ run.2.supply = s.supply) ∧
      (run.1 ≠ none → errors = [] ∧ warnings.map Diagnostic.mark =
        match e.kind with
        | .staged => []
        | .runtime => [(.runtimeWrapper, [(e.span, true)])]) := by
  intro run
  have hnone : run.1 = none ↔ e.failures v ≠ [] := by
    rw [ne_eq, Extension.failures_eq_nil_iff]
    exact e.run_synthesize_eq_none_iff s
  by_cases hfaults : e.faults v = []
  · obtain ⟨target, -, hrun⟩ := Extension.run_synthesize_of_sound hfaults s
    have hnil := Extension.failures_eq_nil_iff.mpr hfaults
    have hsome : run.1 ≠ none := fun h => hnone.mp h hnil
    refine ⟨e.findings, ?_, ?_⟩
    · change ((e.synthesize v).run s).2.findings = _
      rw [hrun]
      exact e.findings_generate v target s
    · intro reports errors warnings
      have herrors : errors = [] := (reports_of_findings names i e).1
      have hwarnings := (reports_of_findings names i e).2
      exact ⟨by rw [herrors, hnil, List.map_nil], hnone, fun h => absurd h hsome,
        fun _ => ⟨herrors, hwarnings⟩⟩
  · have hrun := e.synthesize_of_faults hfaults s
    have hfail : run.1 = none := (e.run_synthesize_eq_none_iff s).mpr hfaults
    obtain ⟨herrors, hwarnings⟩ := reports_of_faults names i (e.faults v)
    refine ⟨(e.faults v).map .fault, congrArg (fun r => r.2.findings) hrun, ?_⟩
    intro reports errors warnings
    exact ⟨herrors.trans (e.map_mark_faults v), hnone,
      fun _ => ⟨hwarnings, congrArg (fun r => r.2.supply) hrun⟩, fun h => absurd hfail h⟩

/-- A staged extension of `42` that declares no result and whose body is `{ val self; self }`: three
errors, and nothing is left of it. -/
theorem synthesize_reports_three :
    let v := Vocabulary.usual
    let receiver : ValueDef Tree Tree :=
      { mods := {}, name := v.selfName, tpe := none, init := none, span := ⟨14, 25⟩ }
    let e : Extension :=
      { kind := .staged
        payload := .ofShape (.literal (.int 42)) ⟨8, 10⟩
        method := { mods := {}, name := v.apply, tparams := [], groups := [[]], result := none,
                    body := .block [.valueDef receiver] (.ident v.selfName ⟨27, 31⟩) ⟨12, 33⟩ }
        span := ⟨0, 33⟩ }
    let s : ExpandState := { supply := { interner := .new } }
    let run := (e.synthesize v).run s
    run.1 = none ∧ run.2.supply = s.supply ∧ ∃ found, run.2.findings = found ∧
      let reports := found.map (Finding.diagnostic v.annotations s.supply.interner)
      (reports.filter Diagnostic.isError).map Diagnostic.mark =
        [(.targetNotHandled, [(⟨8, 10⟩, true)]), (.missingResultType, [(⟨0, 33⟩, true)]),
          (.redeclaredName, [(⟨14, 25⟩, true)])] := by
  intro v receiver e s run
  obtain ⟨found, hfound, herrors, hnone, hfail, -⟩ :=
    synthesize_reports v e s v.annotations s.supply.interner
  have hfailures : e.failures v = [(.targetNotHandled, [(⟨8, 10⟩, true)]),
      (.missingResultType, [(⟨0, 33⟩, true)]), (.redeclaredName, [(⟨14, 25⟩, true)])] := by
    decide
  have hrun : run.1 = none := hnone.mpr (by rw [hfailures]; exact List.cons_ne_nil _ _)
  exact ⟨hrun, (hfail hrun).2, found, hfound, herrors.trans hfailures⟩

end Enrich
