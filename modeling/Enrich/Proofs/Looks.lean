import Enrich.Proofs.Rounds
/-!
# The looks of a run

A run looks at members, one after the other, and all it finds it finds in these looks.  `looks` is
the record of them.  It is taken by the driver itself, over a step that looks at a member as
`expand` does and then writes down the member, where it stands and what came of it.  So no list of
members the driver comes to, in the unit or in generated code, is missing from the record.

* `findings_expand`: what a look finds is in the verdict.
* `recorded_expandUnit`: taking the record changes nothing, and the findings of a run are those of
  its looks, in order.
-/

namespace Enrich

/-! ## 1. What one look finds -/

/-- What there is to say about an extension that is expanded. -/
def Extension.findings (e : Extension) : List Finding :=
  match e.kind with
  | .staged => []
  | .runtime => [.remark (.runtimeWrapper e.method.name e.span)]

/-- What is found in a member with this verdict. -/
def Verdict.findings : Verdict → List Finding
  | .keep remarks => remarks.map .remark
  | .drop faults => faults.map .fault
  | .extend spelling e _ => spelling.map .fault ++ e.findings

/-- A step that takes down no findings. -/
private def Silent {α : Type} (x : ExpandM α) : Prop :=
  ∀ s : ExpandState, (x.run s).2.findings = s.findings

theorem Extension.findings_generate (v : Vocabulary) (e : Extension) (target : Target)
    (s : ExpandState) : ((e.generate v target).run s).2.findings = s.findings ++ e.findings := by
  unfold generate findings
  cases e.kind with
  | staged =>
    have hbind : ∀ {α β : Type} {x : ExpandM α} {f : α → ExpandM β}, Silent x →
        (∀ a, Silent (f a)) → Silent (x >>= f) := fun hx hf s => (hf _ _).trans (hx s)
    have hpure : ∀ {α : Type} (a : α), Silent (pure a : ExpandM α) := fun _ _ => rfl
    have hnames : Silent (e.stagedNames target) :=
      stagedNames_of_steps hpure hbind (fun _ _ => rfl) (fun _ _ => rfl) e target
    rw [List.append_nil]
    exact hnames s
  | runtime => rfl

/-- **A look finds what is in the verdict.** -/
theorem findings_expand (v : Vocabulary) (scope : Scope) (t : Tree) (s : ExpandState) :
    ((expand v scope t).run s).2.findings = s.findings ++ (judge v scope t).findings := by
  cases hj : judge v scope t with
  | keep remarks => rw [run_expand_of_keep hj, Verdict.findings]
  | drop faults => rw [run_expand_of_drop hj, Verdict.findings]
  | extend spelling e target =>
    rw [run_expand_of_extend hj]
    simp only [e.findings_generate, Verdict.findings, List.append_assoc]

/-! ## 2. The record -/

/-- A look at a member, and what came of it. -/
structure Look where
  scope : Scope
  member : Tree
  outcome : Expansion

/-- Looks at a member and writes the look down. -/
def expandRecorded (v : Vocabulary) (scope : Scope) (t : Tree) :
    StateT (List Look) ExpandM Expansion := do
  let outcome ← expand v scope t
  modify (· ++ [{ scope, member := t, outcome }])
  return outcome

/-- The looks that the run on `t` from `s` takes, from first to last. -/
def looks (v : Vocabulary) (t : Tree) (s : ExpandState) : List Look :=
  (((expandRounds (expandRecorded v) t.expansionDepth t).run []).run s).1.2

namespace Look

/-- What is found in a look. -/
def findings (v : Vocabulary) (l : Look) : List Finding := (judge v l.scope l.member).findings

/-- The outcome is what the member comes to, in the state in which it was looked at. -/
def IsTrue (v : Vocabulary) (l : Look) : Prop :=
  ∃ s, l.outcome = ((expand v l.scope l.member).run s).1

/-- **Nothing is dropped without a fault.** -/
theorem exists_fault_of_dropped {v : Vocabulary} {l : Look} (hl : l.IsTrue v)
    (h : l.outcome = .dropped) : ∃ fault, Finding.fault fault ∈ l.findings v := by
  obtain ⟨s, hs⟩ := hl
  obtain ⟨faults, hj⟩ := judge_of_dropped (hs.symm.trans h)
  obtain ⟨fault, hf⟩ := List.exists_mem_of_ne_nil faults (faults_ne_nil_of_drop hj)
  refine ⟨fault, ?_⟩
  rw [findings, hj]
  exact List.mem_map_of_mem hf

end Look

/-- `x` does what `y` does and records the looks `new`, in which `y` finds all it finds. -/
structure Records {α : Type} (v : Vocabulary) (x : StateT (List Look) ExpandM α) (y : ExpandM α)
    (old : List Look) (s : ExpandState) (new : List Look) : Prop where
  run : (x.run old).run s = (((y.run s).1, old ++ new), (y.run s).2)
  findings : (y.run s).2.findings = s.findings ++ new.flatMap (Look.findings v)
  isTrue : ∀ l ∈ new, l.IsTrue v

/-- `x` is `y` on the record. -/
def IsRecorded {α : Type} (v : Vocabulary) (x : StateT (List Look) ExpandM α) (y : ExpandM α) :
    Prop :=
  ∀ old s, ∃ new, Records v x y old s new

namespace IsRecorded

variable {α β : Type} {v : Vocabulary}

theorem pure (a : α) : IsRecorded v (pure a) (pure a) :=
  fun old s => ⟨[], by rw [List.append_nil]; rfl, (List.append_nil _).symm, by simp⟩

theorem bind {x : StateT (List Look) ExpandM α} {y : ExpandM α}
    {f : α → StateT (List Look) ExpandM β} {g : α → ExpandM β} (hx : IsRecorded v x y)
    (hf : ∀ a, IsRecorded v (f a) (g a)) : IsRecorded v (x >>= f) (y >>= g) := by
  intro old s
  obtain ⟨new, h⟩ := hx old s
  obtain ⟨new', h'⟩ := hf (y.run s).1 (old ++ new) (y.run s).2
  have hrun : ((x >>= f).run old).run s =
      ((f ((x.run old).run s).1.1).run ((x.run old).run s).1.2).run ((x.run old).run s).2 := rfl
  refine ⟨new ++ new', ?_, ?_, ?_⟩
  · rw [hrun, h.run, h'.run, List.append_assoc, run_bind_fst]
  · rw [run_bind_fst, h'.findings, h.findings, List.flatMap_append, List.append_assoc]
  · intro l hl
    exact (List.mem_append.mp hl).elim (h.isTrue l) (h'.isTrue l)

theorem expand (v : Vocabulary) (scope : Scope) (t : Tree) :
    IsRecorded v (expandRecorded v scope t) (expand v scope t) := by
  intro old s
  let l : Look := ⟨scope, t, ((Enrich.expand v scope t).run s).1⟩
  refine ⟨[l], rfl, ?_, ?_⟩
  · rw [findings_expand, List.flatMap_singleton]
    rfl
  · intro l' hl'
    rw [List.mem_singleton.mp hl']
    exact ⟨s, rfl⟩

end IsRecorded

/-- **Taking the record changes nothing**, and the findings of a run are those of its looks. -/
theorem recorded_expandUnit (v : Vocabulary) (t : Tree) (s : ExpandState) :
    Records v (expandRounds (expandRecorded v) t.expansionDepth t) (expandUnit v t) [] s
      (looks v t s) := by
  have hall := expandRounds_related (R := IsRecorded v) IsRecorded.pure IsRecorded.bind
    (IsRecorded.expand v) t.expansionDepth t
  obtain ⟨new, h⟩ := hall [] s
  have hlooks : looks v t s = new := by
    rw [looks, h.run, List.nil_append]
  rwa [hlooks]

/-- The findings of a run are those of its looks, in order. -/
theorem findings_eq_looks (v : Vocabulary) (t : Tree) (s : ExpandState) :
    ((expandUnit v t).run s).2.findings = s.findings ++ (looks v t s).flatMap (Look.findings v) :=
  (recorded_expandUnit v t s).findings

end Enrich
