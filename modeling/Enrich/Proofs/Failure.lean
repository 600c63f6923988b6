import Enrich.Proofs.Looks
import Enrich.Session.Basic
/-!
# A unit fails exactly when an error was reported

An outcome is said to fail by the diagnostics that come out of the queue, and the queue keeps some
of what it is given to itself: it refuses what it holds already, and errors beyond its limit.  An
error that is refused is never lost altogether.  It equals one that is held, or it is counted, and
errors that are counted come out as one last error.  So whatever the configuration, an error comes
out if and only if an error went in.

An error goes in whenever a member is dropped, for nothing is dropped without a fault.

* `Queue.shows_add`, `Queue.shows_addAll`: the invariant, and what it comes to over a run.
* `Session.isFailed_expand_iff`: the main statement.
-/

namespace Enrich

/-! ## 1. An error is held or counted -/

namespace Queue

/-- **What the queue does with a diagnostic.**  It counts it and refuses it as a double, or as an
error too many, or takes it in. -/
theorem add_cases (q : Queue) (d : Diagnostic) :
    let counted := { q with errorCount := q.errorCount + d.isError.toNat }
    (q.config.deduplicate = true ∧ d ∈ q.held ∧ q.add d = (false, counted)) ∨
      (¬ (q.config.deduplicate = true ∧ d ∈ q.held) ∧ d.isError = true ∧ q.limitReached = true ∧
        q.add d = (false, { counted with suppressed := q.suppressed + 1 })) ∨
      (¬ (q.config.deduplicate = true ∧ d ∈ q.held) ∧
        ¬ (d.isError = true ∧ q.limitReached = true) ∧
        q.add d = (true, { counted with held := q.held ++ [d] })) := by
  intro counted
  have hadd : q.add d = if q.config.deduplicate && q.held.contains d then (false, counted)
      else if d.isError && q.limitReached then
        (false, { counted with suppressed := q.suppressed + 1 })
      else (true, { counted with held := q.held ++ [d] }) := rfl
  rw [hadd]
  by_cases hdouble : q.config.deduplicate = true ∧ d ∈ q.held
  · exact .inl ⟨hdouble.1, hdouble.2, if_pos (by simpa using hdouble)⟩
  · right
    rw [if_neg (by simpa using hdouble)]
    by_cases hmany : d.isError = true ∧ q.limitReached = true
    · exact .inl ⟨hdouble, hmany.1, hmany.2, if_pos (by simpa using hmany)⟩
    · exact .inr ⟨hdouble, hmany, if_neg (by simpa using hmany)⟩

/-- The queue has counted the errors among `reports`, and holds one or has left one out if there
are any. -/
structure Shows (q : Queue) (reports : List Diagnostic) : Prop where
  errorCount : q.errorCount = reports.countP Diagnostic.isError
  shown : 0 < q.errorCount ↔ 0 < q.heldErrors ∨ 0 < q.suppressed

theorem shows_new (config : QueueConfig) : Shows { config } [] :=
  ⟨rfl, by simp [heldErrors]⟩

/-- **One diagnostic more.** -/
theorem shows_add {q : Queue} {reports : List Diagnostic} (h : q.Shows reports) (d : Diagnostic) :
    (q.add d).2.Shows (reports ++ [d]) := by
  have hcount : q.errorCount + d.isError.toNat = (reports ++ [d]).countP Diagnostic.isError := by
    rw [List.countP_append, h.errorCount]
    cases hd : d.isError <;> simp [hd]
  have hshown := h.shown
  rcases q.add_cases d with ⟨-, hmem, hadd⟩ | ⟨-, herror, -, hadd⟩ | ⟨-, -, hadd⟩
  · -- a double: if it is an error, an error is held
    rw [hadd]
    refine ⟨hcount, ?_⟩
    have hheld : d.isError = true → 0 < q.heldErrors := fun hd =>
      List.countP_pos_iff.mpr ⟨d, hmem, hd⟩
    change 0 < q.errorCount + d.isError.toNat ↔ 0 < q.heldErrors ∨ 0 < q.suppressed
    cases hd : d.isError with
    | false => simpa using hshown
    | true => simp [hheld hd]
  · -- an error too many: it is counted among those left out
    rw [hadd]
    refine ⟨hcount, ?_⟩
    change 0 < q.errorCount + d.isError.toNat ↔ 0 < q.heldErrors ∨ 0 < q.suppressed + 1
    simp [herror]
  · rw [hadd]
    refine ⟨hcount, ?_⟩
    change 0 < q.errorCount + d.isError.toNat ↔
      0 < (q.held ++ [d]).countP Diagnostic.isError ∨ 0 < q.suppressed
    rw [List.countP_append]
    cases hd : d.isError with
    | false => simpa [hd, heldErrors] using hshown
    | true => simp [hd]

/-- **Any number of diagnostics more.** -/
theorem shows_addAll {q : Queue} {reports : List Diagnostic} (h : q.Shows reports)
    (more : List Diagnostic) : (q.addAll more).Shows (reports ++ more) := by
  induction more generalizing q reports with
  | nil => simpa [addAll] using h
  | cons d more ih =>
    have hrest := ih (shows_add h d)
    rwa [List.append_assoc] at hrest

/-- What comes out of the queue has an error if one is held or was left out. -/
theorem exists_isError_flush_iff (q : Queue) :
    (∃ d ∈ q.flush.1, d.isError = true) ↔ 0 < q.heldErrors ∨ 0 < q.suppressed := by
  have hheld : (∃ d ∈ q.held.mergeSort before, d.isError = true) ↔ 0 < q.heldErrors := by
    simp only [List.mem_mergeSort, heldErrors, List.countP_pos_iff]
  have hrest : (∃ d ∈ if q.suppressed > 0 then [tooManyErrors q.config.errorLimit q.suppressed]
      else [], d.isError = true) ↔ 0 < q.suppressed := by
    split
    · rename_i hs
      exact iff_of_true ⟨_, List.mem_singleton_self _, rfl⟩ hs
    · rename_i hs
      exact iff_of_false (fun ⟨_, hd, _⟩ => List.not_mem_nil hd) hs
  simp only [flush_fst, List.mem_append, or_and_right, exists_or, hheld, hrest]

/-- **An error comes out of the queue exactly when one went in.** -/
theorem exists_isError_iff (config : QueueConfig) (reports : List Diagnostic) :
    (∃ d ∈ (({ config } : Queue).addAll reports).flush.1, d.isError = true) ↔
      ∃ d ∈ reports, d.isError = true := by
  have h := shows_addAll (shows_new config) reports
  rw [List.nil_append] at h
  rw [exists_isError_flush_iff, ← h.shown, h.errorCount, List.countP_pos_iff]

end Queue

/-! ## 2. Sessions -/

namespace Session

/-- The looks that the expanding of a unit takes. -/
def looks (s : Session) (t : Tree) : List Look :=
  let (v, interner) := (Vocabulary.intern s.config.toOptions).run s.interner
  Enrich.looks v t { supply := { interner } }

/-- If a member is dropped, an error is reported. -/
theorem exists_isError_of_dropped {s : Session} {t : Tree} {l : Look} (hl : l ∈ s.looks t)
    (h : l.outcome = .dropped) : ∃ d ∈ (s.expandReports t).2.1, d.isError = true := by
  rcases hv : (Vocabulary.intern s.config.toOptions).run s.interner with ⟨v, i⟩
  rcases hr : (expandUnit v t).run { supply := { interner := i } } with ⟨t', state⟩
  have hlooks : s.looks t = Enrich.looks v t { supply := { interner := i } } := by
    simp only [looks, hv]
  have hrec := recorded_expandUnit v t { supply := { interner := i } }
  rw [hlooks] at hl
  obtain ⟨fault, hf⟩ := Look.exists_fault_of_dropped (hrec.isTrue l hl) h
  have hfound : Finding.fault fault ∈ state.findings := by
    have hall := hrec.findings
    rw [hr, List.nil_append] at hall
    rw [hall]
    exact List.mem_flatMap.mpr ⟨l, hl, hf⟩
  rw [expandReports_of_run hv hr]
  exact ⟨_, List.mem_map_of_mem hfound, fault.diagnostic_isError _ _⟩

/-- A unit fails exactly when an error was reported. -/
theorem isFailed_run_expand_iff (s : Session) (t : Tree) :
    ((expand t).run s).1.isFailed = true ↔ ∃ d ∈ (s.expandReports t).2.1, d.isError = true := by
  rw [Outcome.isFailed_iff, run_expand_fst]
  exact Queue.exists_isError_iff s.config.queue (s.expandReports t).2.1

/-- **A unit fails exactly when an error was reported**, whatever the queue kept of it; and if it
does not fail, no member that was looked at was dropped. -/
theorem isFailed_expand_iff (s : Session) (t : Tree) :
    let outcome := ((expand t).run s).1
    (outcome.isFailed = true ↔ ∃ d ∈ (s.expandReports t).2.1, d.isError = true) ∧
      (outcome.isFailed = false → ∀ l ∈ s.looks t, l.outcome ≠ .dropped) := by
  have hiff := isFailed_run_expand_iff s t
  refine ⟨hiff, fun hok l hl hdropped => ?_⟩
  have hfailed := hiff.mpr (exists_isError_of_dropped hl hdropped)
  exact Bool.false_ne_true (hok.symm.trans hfailed)

/-- A runtime extension in a package. -/
theorem isFailed_expand_runtime :
    let v := Vocabulary.usual
    let extension := Tree.extensionDef v.annotations.runtime v.apply (.typeIdent v.list .nowhere)
      none (.ident v.selfName .nowhere) .nowhere
    let unit := Tree.ofShape (.package v.list [extension]) .nowhere
    ((expand unit).run {}).1.isFailed = false ∧
      ∀ l ∈ looks {} unit, l.outcome ≠ .dropped := by
  intro v extension unit
  have hreports : (expandReports {} unit).2.1.any Diagnostic.isError = false := rfl
  have h := isFailed_expand_iff {} unit
  have hok : ((expand unit).run {}).1.isFailed = false := by
    rw [Bool.eq_false_iff, ne_eq, h.1, ← List.any_eq_true, hreports]
    exact Bool.false_ne_true
  exact ⟨hok, h.2 hok⟩

end Session

end Enrich
