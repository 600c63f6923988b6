import Enrich.Proofs.Levels
/-!
# Why a value cannot be flattened

Two things stand in the way of flattening: a plain value that has no form as a tree, and a tag
without a capture.  The first is told by its flat position, the second by its number at its own
level.

The order in which faults count is that of one walk (`Reified.walk`): through the captures of a
level from first to last, each nested value in its place, and then through the tags of the
expression of the level.  A step of the walk is at fault or not whatever the others are
(`WalkStep.fault?`); only the position that is told is a matter of how many captures were placed
before.  So each part of a flattening reports on its own part of the walk (`Reports`), and parts that
follow one another report on their parts together (`Reports.bind`).

* `flattenAt_reports`: flattening reports on the walk.
* `forall_isFaultless_iff`: a walk without fault is one where every level is sound.
* `flatten_faults`: the main statement.
-/

namespace Enrich

variable {V α β : Type} {lift : Lift V}

/-! ## 1. The walk -/

/-- A step of the walk over a reified value. -/
inductive WalkStep (V : Type) where
  /-- The tree of a plain value becomes the next flat capture. -/
  | plain (value : V) (tpe : Tree)
  /-- The expression of a nested value becomes the next flat capture. -/
  | nested
  /-- A tag stands in the expression of a level with `count` captures. -/
  | tag (index count : Nat)

namespace WalkStep

/-- Does a step place a flat capture? -/
def places : WalkStep V → Bool
  | .plain _ _ | .nested => true
  | .tag _ _ => false

/-- The fault of a step, if there is one and `placed` flat captures are placed before the step. -/
def fault? (lift : Lift V) (placed : Nat) : WalkStep V → Option ReifyError
  | .plain value tpe => if (lift value tpe).isSome then none else some (.unsupported placed tpe)
  | .nested => none
  | .tag index count => if index < count then none else some (.dangling index count)

/-- There is no fault in the step, whatever is before it. -/
def IsFaultless (lift : Lift V) (s : WalkStep V) : Prop := ∀ placed, s.fault? lift placed = none

theorem isFaultless_plain_iff {value : V} {tpe : Tree} :
    (plain value tpe).IsFaultless lift ↔ (lift value tpe).isSome := by
  simp [IsFaultless, fault?, Option.isSome_iff_ne_none]

theorem isFaultless_nested : (nested : WalkStep V).IsFaultless lift := fun _ => rfl

theorem isFaultless_tag_iff {index count : Nat} :
    (tag index count : WalkStep V).IsFaultless lift ↔ index < count := by
  simp [IsFaultless, fault?]

end WalkStep

mutual

/-- The walk over a reified value: over its captures, then through the tags of its expression in
reading order. -/
def Reified.walk : Reified V → List (WalkStep V)
  | .mk expr captures => walkCaptures captures ++ expr.tags.map (.tag · captures.length)

/-- The walk over a capture.  A nested value is walked over before it is placed. -/
def Capture.walk : Capture V → List (WalkStep V)
  | .leaf value tpe => [.plain value tpe]
  | .nested value _ => value.walk ++ [.nested]

def walkCaptures : List (Capture V) → List (WalkStep V)
  | [] => []
  | c :: cs => c.walk ++ walkCaptures cs

end

theorem mem_walkCaptures {step : WalkStep V} {cs : List (Capture V)} :
    step ∈ walkCaptures cs ↔ ∃ c ∈ cs, step ∈ c.walk := by
  induction cs with
  | nil => simp [walkCaptures]
  | cons c cs ih => simp [walkCaptures, ih]

theorem Reified.mem_walk {step : WalkStep V} {r : Reified V} :
    step ∈ r.walk ↔ (∃ c ∈ r.captures, step ∈ c.walk) ∨
      ∃ i ∈ r.expr.tags, step = .tag i r.captures.length := by
  cases r with
  | mk expr cs =>
    rw [Reified.walk, List.mem_append, mem_walkCaptures, List.mem_map]
    simp only [Reified.captures, Reified.expr, eq_comm]

mutual

/-- The walk over a reified value places a flat capture for each capture at all levels. -/
theorem Reified.countP_walk : ∀ r : Reified V, r.walk.countP WalkStep.places = r.size
  | .mk expr cs => by
    have htags : (expr.tags.map fun i => (.tag i cs.length : WalkStep V)).countP
        WalkStep.places = 0 := by
      simp [List.countP_map, List.countP_eq_zero, WalkStep.places]
    rw [Reified.walk, List.countP_append, htags, countP_walkCaptures cs, Reified.size_eq_flatCount]
    rfl

theorem Capture.countP_walk : ∀ c : Capture V, c.walk.countP WalkStep.places = c.size
  | .leaf _ _ => rfl
  | .nested r _ => by
    rw [Capture.walk, List.countP_append, r.countP_walk]
    rfl

theorem countP_walkCaptures : ∀ cs : List (Capture V),
    (walkCaptures cs).countP WalkStep.places = flatCount cs
  | [] => rfl
  | c :: cs => by
    rw [walkCaptures, List.countP_append, c.countP_walk, countP_walkCaptures cs, flatCount_cons]

end

/-! ## 2. First faults -/

/-- The first of the steps to be at fault is so with `e`, if `placed` flat captures are placed before
the steps. -/
def IsFirstFault (lift : Lift V) (placed : Nat) (steps : List (WalkStep V)) (e : ReifyError) :
    Prop :=
  ∃ before step after, steps = before ++ step :: after ∧
    (∀ s ∈ before, s.IsFaultless lift) ∧
    step.fault? lift (placed + before.countP WalkStep.places) = some e

namespace IsFirstFault

variable {placed : Nat} {steps steps' : List (WalkStep V)} {e e' : ReifyError}

theorem append_right (h : IsFirstFault lift placed steps e) (steps' : List (WalkStep V)) :
    IsFirstFault lift placed (steps ++ steps') e := by
  obtain ⟨before, step, after, rfl, hbefore, hfault⟩ := h
  exact ⟨before, step, after ++ steps', by simp, hbefore, hfault⟩

theorem append_left (hsteps : ∀ s ∈ steps, s.IsFaultless lift)
    (h : IsFirstFault lift (placed + steps.countP WalkStep.places) steps' e) :
    IsFirstFault lift placed (steps ++ steps') e := by
  obtain ⟨before, step, after, rfl, hbefore, hfault⟩ := h
  refine ⟨steps ++ before, step, after, by simp, ?_, ?_⟩
  · exact fun s hs => (List.mem_append.mp hs).elim (hsteps s) (hbefore s)
  · rw [List.countP_append, ← Nat.add_assoc]
    exact hfault

theorem not_forall_isFaultless (h : IsFirstFault lift placed steps e) :
    ¬ ∀ s ∈ steps, s.IsFaultless lift := by
  obtain ⟨before, step, after, rfl, -, hfault⟩ := h
  intro hall
  rw [hall step (by simp)] at hfault
  contradiction

/-- Of two splits of the same steps at a fault, the second is not behind the first. -/
theorem eq_nil_of_fault {before between rest rest' : List (WalkStep V)} {s s' : WalkStep V}
    (hall : ∀ u ∈ before ++ between, u.IsFaultless lift)
    (heq : s :: rest = between ++ s' :: rest') (hs : ∃ k, s.fault? lift k = some e) :
    between = [] ∧ s = s' := by
  cases between with
  | nil => exact ⟨rfl, (List.cons.inj heq).1⟩
  | cons u between =>
    obtain ⟨k, hk⟩ := hs
    obtain rfl : s = u := (List.cons.inj heq).1
    rw [hall s (by simp)] at hk
    contradiction

/-- There is one first fault at most. -/
theorem unique (h : IsFirstFault lift placed steps e) (h' : IsFirstFault lift placed steps e') :
    e = e' := by
  obtain ⟨before, step, after, hsteps, hbefore, hfault⟩ := h
  obtain ⟨before', step', after', hsteps', hbefore', hfault'⟩ := h'
  obtain ⟨rfl, rfl⟩ : before = before' ∧ step = step' := by
    rcases List.append_eq_append_iff.mp (hsteps.symm.trans hsteps') with
      ⟨between, rfl, heq⟩ | ⟨between, rfl, heq⟩
    · obtain ⟨rfl, rfl⟩ := eq_nil_of_fault hbefore' heq ⟨_, hfault⟩
      exact ⟨(List.append_nil before).symm, rfl⟩
    · obtain ⟨rfl, rfl⟩ := eq_nil_of_fault hbefore heq ⟨_, hfault'⟩
      exact ⟨List.append_nil before', rfl⟩
  exact Option.some.inj (hfault.symm.trans hfault')

end IsFirstFault

/-- The result `x` reports on the steps: it is a failure with the first fault, if there is one. -/
def Reports (lift : Lift V) (placed : Nat) (steps : List (WalkStep V)) (x : Except ReifyError α) :
    Prop :=
  match x with
  | .ok _ => ∀ s ∈ steps, s.IsFaultless lift
  | .error e => IsFirstFault lift placed steps e

namespace Reports

variable {placed : Nat} {steps steps' : List (WalkStep V)} {x : Except ReifyError α}

theorem pure (a : α) : Reports lift placed [] (.ok a) := fun _ hs => absurd hs List.not_mem_nil

/-- **Parts that follow one another report on their parts of the walk together.** -/
theorem bind {f : α → Except ReifyError β} (hx : Reports lift placed steps x)
    (hf : ∀ a, x = .ok a →
      Reports lift (placed + steps.countP WalkStep.places) steps' (f a)) :
    Reports lift placed (steps ++ steps') (x >>= f) := by
  cases x with
  | error e => exact hx.append_right steps'
  | ok a =>
    have hrest := hf a rfl
    change Reports lift placed (steps ++ steps') (f a)
    cases hfa : f a with
    | error e =>
      rw [hfa] at hrest
      exact hrest.append_left hx
    | ok b =>
      rw [hfa] at hrest
      exact fun s hs => (List.mem_append.mp hs).elim (hx s) (hrest s)

/-- What is made of a result afterwards does not matter. -/
theorem map (f : α → β) (hx : Reports lift placed steps x) :
    Reports lift placed steps (x >>= fun a => .ok (f a)) := by
  have hmap : Reports lift placed (steps ++ []) (x >>= fun a => .ok (f a)) :=
    hx.bind fun a _ => pure (f a)
  rwa [List.append_nil] at hmap

/-- A result reports a failure exactly if it is the first fault. -/
theorem eq_error_iff (hx : Reports lift placed steps x) {e : ReifyError} :
    x = .error e ↔ IsFirstFault lift placed steps e := by
  cases x with
  | error e' =>
    refine ⟨fun h => Except.error.inj h ▸ hx, fun h => congrArg _ (IsFirstFault.unique hx h)⟩
  | ok a =>
    refine ⟨fun h => by contradiction, fun h => absurd hx h.not_forall_isFaultless⟩

/-- A result is one exactly if no step is at fault. -/
theorem exists_eq_ok_iff (hx : Reports lift placed steps x) :
    (∃ a, x = .ok a) ↔ ∀ s ∈ steps, s.IsFaultless lift := by
  cases x with
  | error e =>
    refine ⟨fun ⟨a, h⟩ => by contradiction, fun h => absurd h ?_⟩
    exact IsFirstFault.not_forall_isFaultless hx
  | ok a => exact ⟨fun _ => hx, fun _ => ⟨a, rfl⟩⟩

end Reports

/-! ## 3. Flattening reports on the walk -/

/-- The search for a tag without a capture reports on the tags of an expression. -/
theorem reports_tags {placed count : Nat} {tags : List Nat} (a : α) :
    Reports lift placed (tags.map (.tag · count))
      (match tags.find? (count ≤ ·) with
        | some i => .error (.dangling i count)
        | none => .ok a) := by
  cases hfind : tags.find? (count ≤ ·) with
  | none =>
    intro s hs
    obtain ⟨i, hi, rfl⟩ := List.mem_map.mp hs
    have := List.find?_eq_none.mp hfind i hi
    exact WalkStep.isFaultless_tag_iff.mpr (by simpa using this)
  | some i =>
    obtain ⟨hi, before, after, rfl, hbefore⟩ := List.find?_eq_some_iff_append.mp hfind
    refine ⟨before.map (.tag · count), .tag i count, after.map (.tag · count), by simp, ?_, ?_⟩
    · intro s hs
      obtain ⟨j, hj, rfl⟩ := List.mem_map.mp hs
      have := hbefore j hj
      exact WalkStep.isFaultless_tag_iff.mpr (by simpa using this)
    · have hlt : ¬ i < count := by simpa using hi
      exact if_neg hlt

mutual

/-- **Flattening reports on the walk over the value.** -/
theorem flattenAt_reports : ∀ (r : Reified V) (base : Nat),
    Reports lift base r.walk (r.flattenAt lift base)
  | .mk expr cs, base => by
    rw [Reified.walk, Reified.flattenAt]
    refine (flattenCaptures_reports cs base).bind fun p hp => ?_
    obtain ⟨positions, captures⟩ := p
    have hlength : positions.length = cs.length := by
      rw [(flattenCaptures_placed cs hp).1, length_capturePositions]
    rw [← hlength]
    exact reports_tags _

theorem captureFlattenAt_reports : ∀ (c : Capture V) (base : Nat),
    Reports lift base c.walk (c.flattenAt lift base)
  | .leaf value tpe, base => by
    rw [Capture.walk, Capture.flattenAt]
    cases htree : lift value tpe with
    | some tree =>
      intro s hs
      rw [List.mem_singleton.mp hs, WalkStep.isFaultless_plain_iff, htree]
      rfl
    | none =>
      refine ⟨[], .plain value tpe, [], rfl, by simp, ?_⟩
      rw [WalkStep.fault?, htree]
      rfl
  | .nested r tpe, base => by
    rw [Capture.walk, Capture.flattenAt]
    refine (flattenAt_reports r base).bind fun flat _ => ?_
    intro s hs
    rw [List.mem_singleton.mp hs]
    exact WalkStep.isFaultless_nested

theorem flattenCaptures_reports : ∀ (cs : List (Capture V)) (base : Nat),
    Reports lift base (walkCaptures cs) (flattenCaptures lift base cs)
  | [], base => Reports.pure _
  | c :: cs, base => by
    rw [walkCaptures, flattenCaptures]
    refine (captureFlattenAt_reports c base).bind fun flat hflat => ?_
    have hlength : c.walk.countP WalkStep.places = flat.length := by
      rw [c.countP_walk, (captureFlattenAt_placed c hflat).length]
    rw [hlength]
    exact (flattenCaptures_reports cs (base + flat.length)).map _

end

/-! ## 4. Sound levels -/

/-- Nothing stands in the way of flattening at the level of `s` itself. -/
structure Reified.IsSound (lift : Lift V) (s : Reified V) : Prop where
  /-- The plain values have a form as a tree. -/
  plain : ∀ value tpe, .leaf value tpe ∈ s.captures → (lift value tpe).isSome
  /-- The tags have captures. -/
  tags : ∀ i ∈ s.expr.tags, i < s.captures.length

theorem Reified.HasLevel.trans {r s u : Reified V} {base base' : Nat} (h : r.HasLevel base s)
    (h' : s.HasLevel base' u) : r.HasLevel (base + base') u := by
  induction h' with
  | root => exact h
  | nested _ hj ih =>
    rw [← Nat.add_assoc]
    exact ih.nested hj

/-- The walk over a level is part of the walk over the value. -/
theorem Reified.HasLevel.walk_subset {r s : Reified V} {base : Nat} (h : r.HasLevel base s) :
    s.walk ⊆ r.walk := by
  induction h with
  | root => exact List.Subset.refl _
  | @nested base j s inner tpe _ hj ih =>
    refine fun step hstep => ih (Reified.mem_walk.mpr (.inl ⟨_, List.mem_of_getElem? hj, ?_⟩))
    exact List.mem_append_left _ hstep

/-- Every level of the value is sound. -/
def Reified.IsSoundThroughout (lift : Lift V) (r : Reified V) : Prop :=
  ∀ base s, r.HasLevel base s → s.IsSound lift

/-- A plain value has a form as a tree, and a nested value is sound throughout. -/
def Capture.IsSoundThroughout (lift : Lift V) : Capture V → Prop
  | .leaf value tpe => (lift value tpe).isSome
  | .nested inner _ => inner.IsSoundThroughout lift

/-- The captures of a value that is sound throughout are. -/
theorem Reified.IsSoundThroughout.captures {r : Reified V} (h : r.IsSoundThroughout lift) :
    ∀ c ∈ r.captures, c.IsSoundThroughout lift := by
  intro c hc
  cases c with
  | leaf value tpe => exact (h 0 r .root).plain value tpe hc
  | nested inner tpe =>
    obtain ⟨j, hj⟩ := List.getElem?_of_mem hc
    exact fun base s hs => h _ s ((Reified.HasLevel.root.nested hj).trans hs)

mutual

/-- The walk over a value that is sound throughout is without fault. -/
theorem Reified.isFaultless_of_mem_walk : ∀ r : Reified V, r.IsSoundThroughout lift →
    ∀ step ∈ r.walk, step.IsFaultless lift
  | .mk expr cs, h, step, hstep => by
    rw [Reified.walk, List.mem_append, List.mem_map] at hstep
    rcases hstep with hstep | ⟨i, hi, rfl⟩
    · exact isFaultless_of_mem_walkCaptures cs h.captures step hstep
    · exact WalkStep.isFaultless_tag_iff.mpr ((h 0 _ .root).tags i hi)

theorem Capture.isFaultless_of_mem_walk : ∀ c : Capture V, c.IsSoundThroughout lift →
    ∀ step ∈ c.walk, step.IsFaultless lift
  | .leaf value tpe, h, step, hstep => by
    rw [List.mem_singleton.mp hstep]
    exact WalkStep.isFaultless_plain_iff.mpr h
  | .nested r tpe, h, step, hstep => by
    rcases List.mem_append.mp hstep with hstep | hstep
    · exact r.isFaultless_of_mem_walk h step hstep
    · rw [List.mem_singleton.mp hstep]
      exact WalkStep.isFaultless_nested

theorem isFaultless_of_mem_walkCaptures : ∀ cs : List (Capture V),
    (∀ c ∈ cs, c.IsSoundThroughout lift) → ∀ step ∈ walkCaptures cs, step.IsFaultless lift
  | [], _, step, hstep => absurd hstep List.not_mem_nil
  | c :: cs, h, step, hstep => by
    rcases List.mem_append.mp hstep with hstep | hstep
    · exact c.isFaultless_of_mem_walk (h c List.mem_cons_self) step hstep
    · exact isFaultless_of_mem_walkCaptures cs (fun c hc => h c (List.mem_cons_of_mem _ hc)) step
        hstep

end

/-- **A walk is without fault exactly if every level is sound.** -/
theorem forall_isFaultless_iff {r : Reified V} :
    (∀ step ∈ r.walk, step.IsFaultless lift) ↔ r.IsSoundThroughout lift := by
  refine ⟨fun h base s hs => ⟨fun value tpe hleaf => ?_, fun i hi => ?_⟩,
    r.isFaultless_of_mem_walk⟩
  · refine WalkStep.isFaultless_plain_iff.mp (h _ (hs.walk_subset ?_))
    exact Reified.mem_walk.mpr (.inl ⟨_, hleaf, List.mem_singleton_self _⟩)
  · refine WalkStep.isFaultless_tag_iff.mp (h _ (hs.walk_subset ?_))
    exact Reified.mem_walk.mpr (.inr ⟨i, hi, rfl⟩)

/-- **A value is flattened exactly if the plain values at every level have a form as a tree and the
tags at every level have captures.**  If it is not, the failure is the first fault of the walk over
it: a plain value is told by the number of flat captures before it, and a tag by its own number and
by the number of captures of its level. -/
theorem flatten_faults (lift : Lift V) (r : Reified V) :
    ((∃ flat, r.flatten lift = .ok flat) ↔ ∀ base s, r.HasLevel base s → s.IsSound lift) ∧
      ∀ e, r.flatten lift = .error e ↔ ∃ before step after, r.walk = before ++ step :: after ∧
        (∀ s ∈ before, s.IsFaultless lift) ∧
        step.fault? lift (before.countP WalkStep.places) = some e := by
  have hreports : Reports lift 0 r.walk (r.flatten lift) := flattenAt_reports r 0
  refine ⟨hreports.exists_eq_ok_iff.trans forall_isFaultless_iff, fun e => ?_⟩
  rw [hreports.eq_error_iff, IsFirstFault]
  simp only [Nat.zero_add]

/-- In `[A, B{C}]` with a tag without a capture at the level of `B`, `C` is reported if it has no
form as a tree, and else the tag is. -/
example :
    let tpe := Tree.typeIdent ⟨2⟩ .nowhere
    let r : Reified Nat := .mk (.tag 9 .nowhere)
      [.leaf 6 tpe, .nested (.mk (.tag 1 .nowhere) [.leaf 7 tpe]) tpe]
    let lift (limit : Nat) : Lift Nat := fun n _ =>
      if n < limit then some (.ofShape (.literal (.int n)) .nowhere) else none
    r.flatten (lift 7) = .error (.unsupported 1 tpe) ∧
      r.flatten (lift 8) = .error (.dangling 1 1) := ⟨rfl, rfl⟩

end Enrich
