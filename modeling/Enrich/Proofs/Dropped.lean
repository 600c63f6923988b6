import Enrich.Proofs.Rounds
/-!
# A dropped definition leaves no trace but its own errors

The expander writes findings and never reads them (`expandMembers_writeOnly`).  So what is found in a
member has no say in what becomes of the members after it, and neither has a member that is dropped:
it generates no name and leaves no code, all there is of it is a run of errors between the findings
of the members before it and the findings of those after it.

* `expandMembers_writeOnly`: findings are written, never read.
* `leavesOnly_of_dropped`: the main statement.
-/

namespace Enrich

/-! ## 1. Findings are written, never read -/

/-- A step writes findings but does not read them: it does the same after other findings. -/
def WriteOnly {α : Type} (x : ExpandM α) : Prop :=
  ∀ (s : ExpandState) (old : List Finding),
    x.run { s with findings := old ++ s.findings } =
      ((x.run s).1, { (x.run s).2 with findings := old ++ (x.run s).2.findings })

namespace WriteOnly

variable {α β : Type}

theorem pure (a : α) : WriteOnly (pure a : ExpandM α) := fun _ _ => rfl

theorem bind {x : ExpandM α} {f : α → ExpandM β} (hx : WriteOnly x) (hf : ∀ a, WriteOnly (f a)) :
    WriteOnly (x >>= f) := by
  intro s old
  rw [run_bind_fst, run_bind_fst, hx s old]
  exact hf _ _ old

/-- A generated name changes the supply of names, which is not what is written. -/
theorem fresh (hint : String) : WriteOnly (ExpandM.fresh hint) := fun _ _ => rfl

theorem freshFrom (base : Name) : WriteOnly (ExpandM.freshFrom base) := fun _ _ => rfl

theorem write (new : List Finding) :
    WriteOnly (modify fun s => { s with findings := s.findings ++ new } : ExpandM Unit) := by
  intro s old
  have h : (old ++ s.findings) ++ new = old ++ (s.findings ++ new) := List.append_assoc _ _ _
  exact congrArg (fun fs => ((), { s with findings := fs })) h

theorem expand (v : Vocabulary) (scope : Scope) (t : Tree) : WriteOnly (expand v scope t) :=
  expand_of_steps pure bind fresh freshFrom write v scope t

/-- The findings of a step come after those that are there, whatever these are. -/
theorem run_eq {x : ExpandM α} (h : WriteOnly x) (supply : NameSupply) :
    ∃ out supply' new, ∀ old, x.run { supply, findings := old } =
      (out, { supply := supply', findings := old ++ new }) := by
  let r := x.run { supply, findings := [] }
  refine ⟨r.1, r.2.supply, r.2.findings, fun old => ?_⟩
  have := h { supply, findings := [] } old
  rwa [List.append_nil] at this

end WriteOnly

/-- **Members are expanded alike whatever was found before them.** -/
theorem expandMembers_writeOnly (v : Vocabulary) (scope : Scope) (ts : List Tree) :
    WriteOnly (expandMembers v scope ts) :=
  expandMembers_of_steps .pure .bind (.expand v) scope ts

/-! ## 2. A member that is dropped -/

/-- The member `m` leaves nothing but `faults` between the members `ms₁` and `ms₂`. -/
structure LeavesOnly (v : Vocabulary) (scope : Scope) (ms₁ : List Tree) (m : Tree)
    (ms₂ : List Tree) (s : ExpandState) (faults : List Fault) : Prop where
  ne_nil : faults ≠ []
  /-- They are what is found in `m`, whenever `m` is looked at. -/
  found : ∀ s, (expand v scope m).run s =
    (.dropped, { s with findings := s.findings ++ faults.map .fault })
  /-- The code, the counter and the interner are what they are without `m`, and its faults stand in
  one piece after what is found in `ms₁`. -/
  between : ∃ before after out supply,
    ((expandMembers v scope ms₁).run s).2.findings = s.findings ++ before ∧
    (expandMembers v scope (ms₁ ++ ms₂)).run s =
      (out, { supply, findings := s.findings ++ before ++ after }) ∧
    (expandMembers v scope (ms₁ ++ [m] ++ ms₂)).run s =
      (out, { supply, findings := s.findings ++ before ++ faults.map .fault ++ after })
  /-- They are errors, whatever the words. -/
  isError : ∀ names i, ∀ f ∈ faults.map Finding.fault, (f.diagnostic names i).isError = true

/-- **A dropped definition leaves no trace but its own errors.** -/
theorem leavesOnly_of_dropped (v : Vocabulary) (scope : Scope) (ms₁ ms₂ : List Tree) (m : Tree)
    (s s₀ : ExpandState) (h : ((expand v scope m).run s₀).1 = .dropped) :
    ∃ faults, LeavesOnly v scope ms₁ m ms₂ s faults := by
  obtain ⟨faults, hj⟩ := judge_of_dropped h
  have hm : ∀ s, (expandMembers v scope [m]).run s =
      ([], { s with findings := s.findings ++ faults.map .fault }) := by
    intro s
    rw [run_expandMembers_cons, expandMembers_nil, expandMemberIn,
      run_expandMember_of_drop _ _ _ hj]
    rfl
  -- the run over `ms₁` takes down `before`; the run over `ms₂` does the same with or without `m`
  obtain ⟨out₁, supply₁, before, h₁⟩ := (expandMembers_writeOnly v scope ms₁).run_eq s.supply
  obtain ⟨out₂, supply₂, after, h₂⟩ := (expandMembers_writeOnly v scope ms₂).run_eq supply₁
  have hs : (expandMembers v scope ms₁).run s =
      (out₁, { supply := supply₁, findings := s.findings ++ before }) := h₁ s.findings
  refine ⟨faults, faults_ne_nil_of_drop hj, run_expand_of_drop hj,
    ⟨before, after, out₁ ++ out₂, supply₂, by rw [hs], ?_, ?_⟩, ?_⟩
  · simp only [run_expandMembers_append, hs, h₂]
  · simp only [run_expandMembers_append, hs, hm, h₂, List.append_nil]
  · intro names i f hf
    obtain ⟨fault, -, rfl⟩ := List.mem_map.mp hf
    exact fault.diagnostic_isError names i

/-- A staged extension that does not declare its result, between two that do. -/
theorem leavesOnly_missingResult :
    let v := Vocabulary.usual
    let extension (result : Option Tree) := Tree.extensionDef v.annotations.staged v.apply
      (.typeIdent v.list .nowhere) result (.ident v.selfName .nowhere) .nowhere
    let good := extension (some (.typeIdent v.list .nowhere))
    let bad := extension none
    let s : ExpandState := { supply := { interner := .new } }
    ((expand v .container bad).run s).1 = .dropped ∧
      ∃ faults, LeavesOnly v .container [good] bad [good] s faults :=
  ⟨rfl, leavesOnly_of_dropped _ _ _ _ _ _ { supply := { interner := .new } } rfl⟩

end Enrich
