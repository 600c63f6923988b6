import Enrich.Proofs.Reaching
import Enrich.Proofs.Rerun
/-!
# What is left alone

A run returns a unit as it is, and finds nothing in it, exactly when no member of the unit has an
annotation that asks for an extension, rightly or wrongly.

Where there is none, every look at a member keeps it in silence.  Where there is one, something can
be seen of it.  A drop and a remark are findings; and a staged extension, which may be expanded in
silence, leaves two members for one.  Each member that nothing is found in leaves at least one, so
the two could not be made up for by its neighbours (`length_le_of_silent`).

* `run_expandUnit_of_not_hasRecognised`: where nothing is asked for, nothing is done.
* `expandUnit_leaves_iff`: the main statement.
-/

namespace Enrich

/-! ## 1. Members that ask for an extension -/

/-- The members of a layer. -/
def Shape.members {α β : Type} : Shape α β → List β
  | .block stats _ => stats
  | .classDef d => d.body
  | .objectDef d => d.body
  | .package _ stats => stats
  | _ => []

/-- The members of a layer are what stands in its slots for members. -/
theorem Shape.mem_members_iff {α β : Type} {s : Shape α β} {m : β} :
    m ∈ s.members ↔ ∃ scope ms, Slot.members scope ms ∈ s.slots ∧ m ∈ ms := by
  have hone : ∀ {scope : Scope} {ms : List β}, m ∈ ms ↔
      ∃ scope' ms', (scope' = scope ∧ ms' = ms) ∧ m ∈ ms' :=
    ⟨fun h => ⟨_, _, ⟨rfl, rfl⟩, h⟩, fun ⟨_, _, ⟨_, rfl⟩, h⟩ => h⟩
  cases s with
  | block | classDef | objectDef | package =>
    simp only [members, slots, List.mem_append, List.mem_map, reduceCtorEq, and_false, exists_false,
      false_or, List.mem_cons, List.not_mem_nil, or_false, Slot.members.injEq]
    exact hone
  | _ => simp [members, slots]

namespace Tree

/-- Does a member somewhere in the tree ask for an extension? -/
def HasRecognised (names : AnnotationNames) (t : Tree) : Prop :=
  ∃ u m, t.Contains u ∧ m ∈ u.shape.members ∧ m.IsRecognised names

theorem hasRecognised_iff {names : AnnotationNames} {t : Tree} :
    t.HasRecognised names ↔ (∃ m ∈ t.shape.members, m.IsRecognised names) ∨
      ∃ c ∈ t.shape.children, c.HasRecognised names := by
  constructor
  · rintro ⟨u, m, hu, hm, hr⟩
    rcases contains_iff.mp hu with rfl | ⟨c, hc, hu⟩
    · exact .inl ⟨m, hm, hr⟩
    · exact .inr ⟨c, hc, u, m, hu, hm, hr⟩
  · rintro (⟨m, hm, hr⟩ | ⟨c, hc, u, m, hu, hm, hr⟩)
    · exact ⟨t, m, .refl, hm, hr⟩
    · exact ⟨u, m, contains_iff.mpr (.inr ⟨c, hc, hu⟩), hm, hr⟩

end Tree

/-! ## 2. Nothing asked for, nothing done -/

variable {v : Vocabulary}

/-- **A run over a unit that asks for nothing does nothing.** -/
theorem run_expandUnit_of_not_hasRecognised {t : Tree} (h : ¬ t.HasRecognised v.annotations)
    (s : ExpandState) : (expandUnit v t).run s = (t, s) := by
  induction t using Tree.induction generalizing s with
  | step t _ ih =>
    rw [Tree.hasRecognised_iff, not_or] at h
    have hslot : ∀ l ∈ t.slots, ∀ s, (expandSlot v l).run s = (l, s) := by
      intro l hl s
      have hin : ∀ c ∈ l.children, ∀ s, (expandUnit v c).run s = (c, s) := by
        intro c hc
        have hc' := Tree.mem_children_iff.mpr ⟨l, hl, hc⟩
        exact ih c hc' fun hr => h.2 ⟨c, hc', hr⟩
      cases l with
      | one c =>
        have hc := hin c (List.mem_singleton_self c) s
        exact congrArg (fun p => (Slot.one p.1, p.2)) hc
      | members scope ms =>
        have hjudge : ∀ m ∈ ms, judge v scope m = .keep [] := by
          intro m hm
          rw [judge_eq_keep_nil_iff]
          exact fun hr => h.1 ⟨m, Shape.mem_members_iff.mpr ⟨scope, ms, hl, hm⟩, hr⟩
        have hms := run_expandMembers_of_silent hjudge s
        rw [run_mapM_of_fixed (l := ms) hin] at hms
        exact congrArg (fun p => (Slot.members scope p.1, p.2)) hms
    exact run_expandUnit_eq rfl (run_mapM_of_fixed hslot s)

/-! ## 3. Whatever is asked for can be seen -/

/-- A step takes findings down and takes none back. -/
def Appends {α : Type} (x : ExpandM α) : Prop := ∀ s, s.findings <+: (x.run s).2.findings

namespace Appends

variable {α β : Type}

theorem pure (a : α) : Appends (pure a : ExpandM α) := fun _ => List.prefix_rfl

theorem bind {x : ExpandM α} {f : α → ExpandM β} (hx : Appends x) (hf : ∀ a, Appends (f a)) :
    Appends (x >>= f) := fun s => (hx s).trans (hf _ _)

theorem expand (v : Vocabulary) (scope : Scope) (t : Tree) : Appends (expand v scope t) :=
  fun s => by
    rw [findings_expand]
    exact List.prefix_append _ _

theorem expandUnit (v : Vocabulary) (t : Tree) : Appends (expandUnit v t) :=
  expandUnit_of_steps pure bind (expand v) t

theorem expandMemberIn (v : Vocabulary) (scope : Scope) (t : Tree) :
    Appends (expandMemberIn v scope t) :=
  expandMember_of_steps pure bind (expand v) (expandUnit v) scope (expandUnit v t)

theorem expandMembers (v : Vocabulary) (scope : Scope) (ts : List Tree) :
    Appends (expandMembers v scope ts) :=
  expandMembers_of_steps pure bind (expand v) scope ts

theorem expandSlot (v : Vocabulary) : ∀ l, Appends (expandSlot v l)
  | .one c => map_of_steps pure bind Slot.one (expandUnit v c)
  | .members scope ms => map_of_steps pure bind (Slot.members scope) (expandMembers v scope ms)

/-- Of two steps that take nothing down together, neither does. -/
theorem silent {x : ExpandM α} {y : ExpandM β} (hx : Appends x) (hy : Appends y) {s : ExpandState}
    (h : (y.run (x.run s).2).2.findings = s.findings) :
    (x.run s).2.findings = s.findings ∧
      (y.run (x.run s).2).2.findings = (x.run s).2.findings := by
  have hback : (x.run s).2.findings <+: s.findings := by
    rw [← h]
    exact hy _
  have heq := hback.eq_of_length_le (hx s).length_le
  exact ⟨heq, h.trans heq.symm⟩

end Appends

/-- From some state, `x` returns `a` and finds nothing. -/
def Leaves {α : Type} (x : ExpandM α) (a : α) : Prop :=
  ∃ s, (x.run s).1 = a ∧ (x.run s).2.findings = s.findings

/-- A list is left only if each of its elements is. -/
theorem leaves_of_leaves_mapM {α : Type} {f : α → ExpandM α} (hf : ∀ a, Appends (f a)) :
    ∀ {l : List α}, Leaves (l.mapM f) l → ∀ a ∈ l, Leaves (f a) a
  | [], _, b, hb => absurd hb List.not_mem_nil
  | a :: l, ⟨s, hout, hfound⟩, b, hb => by
    rw [run_mapM_cons] at hout hfound
    obtain ⟨ha, hl⟩ := List.cons.inj hout
    have hrest : Appends (l.mapM f) := mapM_of_steps Appends.pure Appends.bind fun a _ => hf a
    obtain ⟨hfa, hfl⟩ := (hf a).silent hrest hfound
    rcases List.mem_cons.mp hb with rfl | hb
    · exact ⟨s, ha, hfa⟩
    · exact leaves_of_leaves_mapM hf ⟨((f a).run s).2, hl, hfl⟩ b hb

section

variable {scope : Scope} {m : Tree} {s : ExpandState}

/-- A member in which nothing is found has a verdict with nothing in it. -/
theorem judge_findings_of_silent
    (h : ((expandMemberIn v scope m).run s).2.findings = s.findings) :
    (judge v scope m).findings = [] := by
  obtain ⟨rest, hrest, happends⟩ : ∃ rest, expandMemberIn v scope m = expand v scope m >>= rest ∧
      ∀ o, Appends (rest o) := by
    refine ⟨_, rfl, fun o => ?_⟩
    cases o with
    | kept => exact Appends.bind (.expandUnit v m) fun u => .pure [u]
    | replaced trees =>
      exact mapM_of_steps Appends.pure Appends.bind fun u _ => Appends.expandUnit v u
    | dropped => exact .pure []
  rw [hrest, run_bind_fst] at h
  have hlook := ((Appends.expand v scope m).silent (happends _) h).1
  rw [findings_expand] at hlook
  exact List.append_right_eq_self.mp hlook

/-- **A member in which nothing is found** asks for nothing and stays, or leaves two trees. -/
theorem silent_cases (h : ((expandMemberIn v scope m).run s).2.findings = s.findings) :
    (judge v scope m = .keep [] ∧ (expandMemberIn v scope m).run s =
        ([((expandUnit v m).run s).1], ((expandUnit v m).run s).2)) ∨
      ((expandMemberIn v scope m).run s).1.length = 2 := by
  have hnone := judge_findings_of_silent h
  cases hj : judge v scope m with
  | keep remarks =>
    rw [hj] at hnone
    obtain rfl := List.map_eq_nil_iff.mp hnone
    refine .inl ⟨rfl, ?_⟩
    rw [expandMemberIn, run_expandMember_of_keep _ _ _ hj]
    simp only [List.map_nil, List.append_nil]
  | drop faults =>
    rw [hj] at hnone
    exact absurd (List.map_eq_nil_iff.mp hnone) (faults_ne_nil_of_drop hj)
  | extend spelling e target =>
    rw [hj] at hnone
    have hkind : e.kind = .staged := by
      have he : e.findings = [] := (List.append_eq_nil_iff.mp hnone).2
      unfold Extension.findings at he
      split at he
      · assumption
      · contradiction
    right
    rw [expandMemberIn, run_expandMember_of_extend _ _ _ hj]
    simp only [length_run_mapM]
    have hy := e.yields_generate v target { s with findings := s.findings ++ spelling.map .fault }
    simp only [Extension.Yields, hkind] at hy
    obtain ⟨names, hnames⟩ := hy
    rw [hnames]
    rfl

end

/-- Of members in which nothing is found, nothing is found in the first or in the others. -/
theorem silent_cons {scope : Scope} {m : Tree} {ms : List Tree} {s : ExpandState}
    (h : ((expandMembers v scope (m :: ms)).run s).2.findings = s.findings) :
    let s₁ := ((expandMemberIn v scope m).run s).2
    s₁.findings = s.findings ∧ ((expandMembers v scope ms).run s₁).2.findings = s₁.findings := by
  rw [run_expandMembers_cons] at h
  exact (Appends.expandMemberIn v scope m).silent (Appends.expandMembers v scope ms) h

/-- **No member goes in silence.** -/
theorem length_le_of_silent {scope : Scope} : ∀ {ms : List Tree} {s : ExpandState},
    ((expandMembers v scope ms).run s).2.findings = s.findings →
      ms.length ≤ ((expandMembers v scope ms).run s).1.length
  | [], _, _ => Nat.zero_le _
  | m :: ms, s, h => by
    obtain ⟨hm, hms⟩ := silent_cons h
    have hrest := length_le_of_silent hms
    have hfirst : 1 ≤ ((expandMemberIn v scope m).run s).1.length := by
      rcases silent_cases hm with ⟨-, hrun⟩ | hlength
      · rw [hrun]
        exact Nat.le_refl 1
      · omega
    simp only [run_expandMembers_cons, List.length_append, List.length_cons]
    omega

/-- **Members are left only if none of them asks for anything** and each is left inside. -/
theorem leaves_of_leaves_members {scope : Scope} : ∀ {ms : List Tree},
    Leaves (expandMembers v scope ms) ms →
      ∀ m ∈ ms, judge v scope m = .keep [] ∧ Leaves (expandUnit v m) m
  | [], _, m, hm => absurd hm List.not_mem_nil
  | m :: ms, ⟨s, hout, hfound⟩, m', hm' => by
    obtain ⟨hm, hms⟩ := silent_cons hfound
    have hrest := length_le_of_silent hms
    simp only [run_expandMembers_cons] at hout
    rcases silent_cases hm with ⟨hjudge, hrun⟩ | hlength
    · rw [hrun] at hout hm hms
      obtain ⟨hself, hothers⟩ := List.cons.inj hout
      rcases List.mem_cons.mp hm' with rfl | hm'
      · exact ⟨hjudge, s, hself, hm⟩
      · exact leaves_of_leaves_members ⟨_, hothers, hms⟩ m' hm'
    · -- two trees stand for `m`, so the others would have to be one fewer
      have hcount := congrArg List.length hout
      rw [List.length_append, List.length_cons] at hcount
      omega

/-! ## 4. Units -/

/-- Where a unit is left as it is and nothing is found, nothing was asked for. -/
theorem not_hasRecognised_of_leaves {t : Tree} (h : Leaves (expandUnit v t) t) :
    ¬ t.HasRecognised v.annotations := by
  induction t using Tree.induction with
  | step t _ ih =>
    obtain ⟨s, hout, hfound⟩ := h
    have hslots : Leaves (t.slots.mapM (expandSlot v)) t.slots := by
      obtain ⟨-, hrun⟩ := run_expandUnit v t s
      rw [hout] at hrun
      exact ⟨s, by rw [hrun], by rw [hrun]; exact hfound⟩
    have hslot := leaves_of_leaves_mapM (Appends.expandSlot v) hslots
    have hmembers : ∀ scope ms, Slot.members scope ms ∈ t.slots →
        ∀ m ∈ ms, judge v scope m = .keep [] ∧ Leaves (expandUnit v m) m := by
      intro scope ms hl
      obtain ⟨s, hout, hfound⟩ := hslot _ hl
      exact leaves_of_leaves_members ⟨s, (Slot.members.inj hout).2, hfound⟩
    rw [Tree.hasRecognised_iff, not_or]
    constructor
    · rintro ⟨m, hm, hasks⟩
      obtain ⟨scope, ms, hl, hm⟩ := Shape.mem_members_iff.mp hm
      exact judge_eq_keep_nil_iff.mp (hmembers scope ms hl m hm).1 hasks
    · rintro ⟨c, hc, hasks⟩
      refine ih c hc ?_ hasks
      obtain ⟨l, hl, hc⟩ := Tree.mem_children_iff.mp hc
      cases l with
      | one c' =>
        obtain rfl := List.mem_singleton.mp hc
        obtain ⟨s, hout, hfound⟩ := hslot _ hl
        exact ⟨s, Slot.one.inj hout, hfound⟩
      | members scope ms => exact (hmembers scope ms hl c hc).2

/-- **A unit is left as it is, and nothing is found in it, exactly when no member asks for an
extension.**  In that case no name is generated and nothing is interned either. -/
theorem expandUnit_leaves_iff (v : Vocabulary) (t : Tree) (s : ExpandState) :
    (((expandUnit v t).run s).1 = t ∧ ((expandUnit v t).run s).2.findings = s.findings ↔
        ¬ t.HasRecognised v.annotations) ∧
      ((expandUnit v t).run s = (t, s) ↔ ¬ t.HasRecognised v.annotations) := by
  have hback : ((expandUnit v t).run s).1 = t → ((expandUnit v t).run s).2.findings = s.findings →
      ¬ t.HasRecognised v.annotations := by
    intro hout hfound
    exact not_hasRecognised_of_leaves ⟨s, hout, hfound⟩
  refine ⟨⟨fun h => hback h.1 h.2, fun h => ?_⟩, fun h => ?_, fun h => ?_⟩
  · rw [run_expandUnit_of_not_hasRecognised h]
    exact ⟨rfl, rfl⟩
  · exact hback (by rw [h]) (by rw [h])
  · exact run_expandUnit_of_not_hasRecognised h s

end Enrich
