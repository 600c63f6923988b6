import Enrich.Proofs.Rounds
/-!
# What a run comes to, and where that ends up

A run on a unit is made of runs on smaller trees, each from the state that the run has come to: on
the children of a node from first to last, on members that are kept, and on the code generated for
members that are replaced.  `Runs` says which these are.  Nothing is done to a part of the output
afterwards, so whatever such a run yields is part of the final output.

* `contains_of_runs`: the output of a run within a run is a subtree of the output.
* `contains_of_reachesMember`: so is what takes the place of a member.
-/

namespace Enrich

/-- `u` is `t` or stands somewhere in it. -/
inductive Tree.Contains (t : Tree) : Tree → Prop
  | refl : Contains t t
  | child {u c : Tree} : Contains t u → c ∈ u.shape.children → Contains t c

/-- What stands in a tree is the tree, or stands in a child. -/
theorem Tree.contains_iff {t u : Tree} :
    t.Contains u ↔ u = t ∨ ∃ c ∈ t.shape.children, c.Contains u := by
  constructor
  · intro h
    induction h with
    | refl => exact .inl rfl
    | child _ hc ih =>
      rcases ih with rfl | ⟨c', hc', h'⟩
      · exact .inr ⟨_, hc, .refl⟩
      · exact .inr ⟨c', hc', h'.child hc⟩
  · rintro (rfl | ⟨c, hc, h⟩)
    · exact .refl
    · induction h with
      | refl => exact .child .refl hc
      | child _ hc' ih => exact ih.child hc'

variable (v : Vocabulary)

/-- The run on `t` from `s` comes to the slot `l` in the state `s'`. -/
def ReachesSlot (t : Tree) (s : ExpandState) (l : Slot Tree) (s' : ExpandState) : Prop :=
  ∃ before after, t.slots = before ++ l :: after ∧ s' = ((before.mapM (expandSlot v)).run s).2

/-- The run on `t` from `s` comes to the member `m` in the state `s'`. -/
def ReachesMember (t : Tree) (s : ExpandState) (scope : Scope) (m : Tree) (s' : ExpandState) :
    Prop :=
  ∃ before after s₁, ReachesSlot v t s (.members scope (before ++ m :: after)) s₁ ∧
    s' = ((expandMembers v scope before).run s₁).2

/-- The run on `t` from `s` contains the run on `u` from `s'`. -/
inductive Runs (t : Tree) (s : ExpandState) : Tree → ExpandState → Prop
  /-- A run contains itself. -/
  | refl : Runs t s t s
  /-- It goes on with a child. -/
  | child {u c : Tree} {s₁ s₂ : ExpandState} :
    Runs t s u s₁ → ReachesSlot v u s₁ (.one c) s₂ → Runs t s c s₂
  /-- It goes on inside a member that is kept. -/
  | kept {u m : Tree} {s₁ s₂ : ExpandState} {scope : Scope} {remarks : List Remark} :
    Runs t s u s₁ → ReachesMember v u s₁ scope m s₂ → judge v scope m = .keep remarks →
      Runs t s m { s₂ with findings := s₂.findings ++ remarks.map .remark }
  /-- It goes on with the code generated for a member. -/
  | generated {u m g : Tree} {s₁ s₂ s₃ : ExpandState} {scope : Scope} {spelling : List Fault}
      {e : Extension} {target : Target} {before after : List Tree} :
    Runs t s u s₁ → ReachesMember v u s₁ scope m s₂ →
      judge v scope m = .extend spelling e target →
      (e.generate v target).run { s₂ with findings := s₂.findings ++ spelling.map .fault } =
        (before ++ g :: after, s₃) →
      Runs t s g ((before.mapM (expandUnit v)).run s₃).2

variable {v} {t u m : Tree} {s s' : ExpandState} {scope : Scope}

theorem mem_slots_of_reachesSlot {l : Slot Tree} (h : ReachesSlot v t s l s') :
    ((expandSlot v l).run s').1 ∈ ((expandUnit v t).run s).1.slots := by
  obtain ⟨before, after, hslots, rfl⟩ := h
  obtain ⟨-, hrun⟩ := run_expandUnit v t s
  rw [hslots, run_mapM_append, run_mapM_cons, Prod.mk.injEq] at hrun
  rw [← hrun.1]
  exact List.mem_append_right _ List.mem_cons_self

theorem mem_children_of_reachesSlot {c : Tree} (h : ReachesSlot v t s (.one c) s') :
    ((expandUnit v c).run s').1 ∈ ((expandUnit v t).run s).1.shape.children :=
  Tree.mem_children_iff.mpr ⟨_, mem_slots_of_reachesSlot h, List.mem_singleton_self _⟩

/-- What takes the place of a member stands where the member stood. -/
theorem mem_children_of_reachesMember (h : ReachesMember v t s scope m s') :
    ∀ c ∈ ((expandMemberIn v scope m).run s').1,
      c ∈ ((expandUnit v t).run s).1.shape.children := by
  intro c hc
  obtain ⟨before, after, s₁, hslot, rfl⟩ := h
  refine Tree.mem_children_iff.mpr ⟨_, mem_slots_of_reachesSlot hslot, ?_⟩
  have hout : ((expandSlot v (.members scope (before ++ m :: after))).run s₁).1.children =
      ((expandMembers v scope (before ++ m :: after)).run s₁).1 := rfl
  rw [hout, run_expandMembers_middle]
  exact List.mem_append_right _ (List.mem_append_left _ hc)

/-- **The output of a run within a run is part of the output.** -/
theorem contains_of_runs (h : Runs v t s u s') :
    ((expandUnit v t).run s).1.Contains ((expandUnit v u).run s').1 := by
  induction h with
  | refl => exact .refl
  | child _ hslot ih => exact ih.child (mem_children_of_reachesSlot hslot)
  | kept _ hm hj ih =>
    refine ih.child (mem_children_of_reachesMember hm _ ?_)
    rw [expandMemberIn, run_expandMember_of_keep _ _ _ hj]
    exact List.mem_singleton_self _
  | generated _ hm hj hcode ih =>
    refine ih.child (mem_children_of_reachesMember hm _ ?_)
    rw [expandMemberIn, run_expandMember_of_extend _ _ _ hj, hcode]
    dsimp only
    rw [run_mapM_append, run_mapM_cons]
    exact List.mem_append_right _ List.mem_cons_self

/-- **What takes the place of a member is part of the output.** -/
theorem contains_of_reachesMember (h : Runs v t s u s') {s₁ : ExpandState}
    (hm : ReachesMember v u s' scope m s₁) :
    ∀ c ∈ ((expandMemberIn v scope m).run s₁).1, ((expandUnit v t).run s).1.Contains c :=
  fun c hc => (contains_of_runs h).child (mem_children_of_reachesMember hm c hc)

end Enrich
