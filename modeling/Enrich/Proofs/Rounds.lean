import Enrich.Proofs.Depth
import Enrich.Proofs.Related
import Enrich.Proofs.Runs
/-!
# Expansion without rounds

`expandUnit` goes a bounded number of rounds into generated code.  The bound is never felt:
generated code is less deep than the member it replaces, so the rounds a tree has are enough for the
code generated in it.  Hence the equation that one would write down without any bound
(`outline_expandUnit`): the outline of a tree is kept, and its slots are expanded from first to
last, where generated code is expanded by `expandUnit` again.

The facts about expansion that later modules rest on are proved along this equation, by the
induction that goes with it (`Tree.expansionInduction`).

* `expandRounds_eq_expandUnit`: more rounds than the depth change nothing.
* `outline_expandUnit`, `run_expandUnit`: the equation, and what it says of a run.
* `expand_of_steps`: what the steps of a look at a member are, the look is.
* `expandUnit_of_steps`, `expandMembers_of_steps`: what every look at a member is, a run is.
-/

namespace Enrich

/-! ## 1. The rounds are enough -/

namespace Tree

/-- **Induction along an expansion.**  A property holds of every tree if it passes to a tree from
its children and from all trees that are less deep. -/
theorem expansionInduction {P : Tree → Prop}
    (step : ∀ t : Tree, (∀ u : Tree, u.expansionDepth < t.expansionDepth → P u) →
      (∀ c ∈ t.shape.children, P c) → P t) : ∀ t, P t := by
  have hall : ∀ n, ∀ t : Tree, t.expansionDepth ≤ n → P t := by
    intro n
    induction n with
    | zero =>
      intro t
      induction t using induction with
      | step t _ ih =>
        intro h
        refine step t (fun u hu => by omega) fun c hc => ih c hc ?_
        have := depth_child_le hc
        omega
    | succ n ihn =>
      intro t
      induction t using induction with
      | step t _ ih =>
        intro h
        refine step t (fun u hu => ihn u (by omega)) fun c hc => ih c hc ?_
        have := depth_child_le hc
        omega
  exact fun t => hall _ t (Nat.le_refl _)

end Tree

/-- What becomes of a slot, if what is kept is expanded by `inside` and generated code by
`again`. -/
def expandSlotBy (v : Vocabulary) (again inside : Tree → ExpandM Tree) :
    Slot Tree → ExpandM (Slot Tree)
  | .one c => .one <$> inside c
  | .members scope ms => (fun l => .members scope l.flatten) <$>
      ms.mapM fun c => expandMember (expand v) again scope (c, inside c)

/-- The rounds after the first one. -/
private def roundsAfter (v : Vocabulary) : Nat → Tree → ExpandM Tree
  | 0 => pure
  | n + 1 => expandRounds (expand v) n

private theorem outline_expandRounds (v : Vocabulary) (n : Nat) (t : Tree) :
    (fun u => (u.outline, u.slots)) <$> expandRounds (expand v) n t =
      (t.outline, ·) <$>
        t.slots.mapM (expandSlotBy v (roundsAfter v n) (expandRounds (expand v) n)) := by
  have hpass : expandRounds (expand v) n = Tree.rebuild (.onMembers fun scope ts _ => do
      return (← ts.mapM (expandMember (expand v) (roundsAfter v n) scope)).flatten) := by
    cases n <;> rfl
  rw [hpass, Tree.outline_rebuild]
  congr 1
  refine mapM_congr fun l _ => ?_
  cases l with
  | one c => rfl
  | members scope ms =>
    simp only [Tree.rebuildSlot, Rebuild.slot, Slot.map, Rebuild.memberList, Rebuild.onMembers,
      expandSlotBy, List.mapM_map, map_eq_pure_bind, bind_assoc, pure_bind, Function.comp_def]

section

variable {v : Vocabulary} {scope : Scope} {t : Tree} (again : Tree → ExpandM Tree)
  (inside : ExpandM Tree) (s : ExpandState)

theorem run_expandMember_of_keep {remarks : List Remark} (h : judge v scope t = .keep remarks) :
    (expandMember (expand v) again scope (t, inside)).run s =
      let out := inside.run { s with findings := s.findings ++ remarks.map .remark }
      ([out.1], out.2) := by
  rw [expandMember, run_bind_fst, run_expand_of_keep h]
  rfl

theorem run_expandMember_of_drop {faults : List Fault} (h : judge v scope t = .drop faults) :
    (expandMember (expand v) again scope (t, inside)).run s =
      ([], { s with findings := s.findings ++ faults.map .fault }) := by
  rw [expandMember, run_bind_fst, run_expand_of_drop h]
  rfl

theorem run_expandMember_of_extend {spelling : List Fault} {e : Extension} {target : Target}
    (h : judge v scope t = .extend spelling e target) :
    (expandMember (expand v) again scope (t, inside)).run s =
      let code := (e.generate v target).run
        { s with findings := s.findings ++ spelling.map .fault }
      (code.1.mapM again).run code.2 := by
  rw [expandMember, run_bind_fst, run_expand_of_extend h]

end

/-- A member becomes the same if its inside does and all code that can be generated for it. -/
private theorem expandMember_congr {v : Vocabulary}
    {again again' inside inside' : Tree → ExpandM Tree} {c : Tree} (scope : Scope)
    (hi : inside c = inside' c)
    (ha : ∀ u : Tree, u.expansionDepth < c.expansionDepth → again u = again' u) :
    expandMember (expand v) again scope (c, inside c) =
      expandMember (expand v) again' scope (c, inside' c) := by
  refine StateT.ext fun s => ?_
  cases hj : judge v scope c with
  | keep remarks =>
    rw [run_expandMember_of_keep _ _ _ hj, run_expandMember_of_keep _ _ _ hj, hi]
  | drop faults => rw [run_expandMember_of_drop _ _ _ hj, run_expandMember_of_drop _ _ _ hj]
  | extend spelling e target =>
    have hu := depth_lt_of_extend hj (e.yields_generate v target
      { s with findings := s.findings ++ spelling.map .fault })
    rw [run_expandMember_of_extend _ _ _ hj, run_expandMember_of_extend _ _ _ hj]
    simp only
    rw [mapM_congr fun u hm => ha u (hu u hm)]

private theorem expandSlotBy_congr {v : Vocabulary}
    {again again' inside inside' : Tree → ExpandM Tree} {l : Slot Tree}
    (hi : ∀ c ∈ l.children, inside c = inside' c)
    (ha : ∀ c ∈ l.children, ∀ u : Tree, u.expansionDepth < c.expansionDepth → again u = again' u) :
    expandSlotBy v again inside l = expandSlotBy v again' inside' l := by
  cases l with
  | one c => simp only [expandSlotBy, hi c (List.mem_singleton_self c)]
  | members scope ms =>
    have hms : ms.mapM (fun c => expandMember (expand v) again scope (c, inside c)) =
        ms.mapM fun c => expandMember (expand v) again' scope (c, inside' c) :=
      mapM_congr fun c hc => expandMember_congr scope (hi c hc) (ha c hc)
    simp only [expandSlotBy, hms]

/-- Two steps that yield trees are the same if the outlines and slots they yield are. -/
private theorem eq_of_outline_eq {x y : ExpandM Tree}
    (h : (fun u : Tree => (u.outline, u.slots)) <$> x =
      (fun u : Tree => (u.outline, u.slots)) <$> y) :
    x = y := by
  funext s
  have hs : (fun p : Tree × ExpandState => ((p.1.outline, p.1.slots), p.2)) (x s) =
      (fun p : Tree × ExpandState => ((p.1.outline, p.1.slots), p.2)) (y s) := congrFun h s
  simp only [Prod.mk.injEq] at hs
  exact Prod.ext (Tree.eq_of_outline hs.1.1 hs.1.2) hs.2

/-- **More rounds than the depth change nothing.** -/
theorem expandRounds_eq_expandUnit (v : Vocabulary) (t : Tree) :
    ∀ n, t.expansionDepth ≤ n → expandRounds (expand v) n t = expandUnit v t := by
  have hall : ∀ n n', t.expansionDepth ≤ n → t.expansionDepth ≤ n' →
      expandRounds (expand v) n t = expandRounds (expand v) n' t := by
    induction t using Tree.expansionInduction with
    | step t ihless ihchild =>
      intro n n' hn hn'
      refine eq_of_outline_eq ?_
      rw [outline_expandRounds, outline_expandRounds]
      congr 1
      refine mapM_congr fun l hl => expandSlotBy_congr (fun c hc => ?_) fun c hc u hu => ?_
      · have hm := Tree.mem_children_iff.mpr ⟨l, hl, hc⟩
        have := Tree.depth_child_le hm
        exact ihchild c hm n n' (by omega) (by omega)
      · have := Tree.depth_child_le (Tree.mem_children_iff.mpr ⟨l, hl, hc⟩)
        obtain ⟨k, rfl⟩ : ∃ k, n = k + 1 := ⟨n - 1, by omega⟩
        obtain ⟨k', rfl⟩ : ∃ k', n' = k' + 1 := ⟨n' - 1, by omega⟩
        exact ihless u (by omega) k k' (by omega) (by omega)
  exact fun n hn => hall n _ hn (Nat.le_refl _)

/-! ## 2. The equation -/

/-- What becomes of a member: itself, expanded inside; the code generated for it, expanded; or
nothing. -/
def expandMemberIn (v : Vocabulary) (scope : Scope) (t : Tree) : ExpandM (List Tree) :=
  expandMember (expand v) (expandUnit v) scope (t, expandUnit v t)

/-- What becomes of a list of members. -/
def expandMembers (v : Vocabulary) (scope : Scope) (ts : List Tree) : ExpandM (List Tree) :=
  (Rebuild.expanding (expand v) (expandUnit v)).memberList scope
    (ts.map fun t => (t, expandUnit v t))

theorem expandMembers_eq (v : Vocabulary) (scope : Scope) (ts : List Tree) :
    expandMembers v scope ts = List.flatten <$> ts.mapM (expandMemberIn v scope) := by
  simp only [expandMembers, Rebuild.memberList, Rebuild.expanding, List.mapM_map,
    map_eq_pure_bind]
  rfl

@[simp] theorem expandMembers_nil (v : Vocabulary) (scope : Scope) :
    expandMembers v scope [] = pure [] := by
  rw [expandMembers_eq, List.mapM_nil, map_pure]
  rfl

/-- Members are expanded from first to last. -/
theorem run_expandMembers_cons (v : Vocabulary) (scope : Scope) (t : Tree) (ts : List Tree)
    (s : ExpandState) :
    (expandMembers v scope (t :: ts)).run s =
      let first := (expandMemberIn v scope t).run s
      let rest := (expandMembers v scope ts).run first.2
      (first.1 ++ rest.1, rest.2) := by
  simp only [expandMembers_eq, List.mapM_cons, map_eq_pure_bind, bind_assoc, pure_bind]
  rfl

theorem run_expandMembers_append (v : Vocabulary) (scope : Scope) :
    ∀ (ts us : List Tree) (s : ExpandState),
      (expandMembers v scope (ts ++ us)).run s =
        let first := (expandMembers v scope ts).run s
        let rest := (expandMembers v scope us).run first.2
        (first.1 ++ rest.1, rest.2)
  | [], us, s => by
    rw [expandMembers_nil]
    rfl
  | t :: ts, us, s => by
    simp only [List.cons_append, run_expandMembers_cons, run_expandMembers_append v scope ts us,
      List.append_assoc]

/-- What stands for members is what became of one of them. -/
theorem exists_of_mem_expandMembers {v : Vocabulary} {scope : Scope} {c : Tree} :
    ∀ {ts : List Tree} {s : ExpandState}, c ∈ ((expandMembers v scope ts).run s).1 →
      ∃ t ∈ ts, ∃ s₁, c ∈ ((expandMemberIn v scope t).run s₁).1
  | [], _, h => by
    rw [expandMembers_nil] at h
    exact absurd h List.not_mem_nil
  | t :: ts, s, h => by
    rw [run_expandMembers_cons] at h
    rcases List.mem_append.mp h with h | h
    · exact ⟨t, List.mem_cons_self, s, h⟩
    · obtain ⟨t', ht', hs⟩ := exists_of_mem_expandMembers h
      exact ⟨t', List.mem_cons_of_mem _ ht', hs⟩

/-- What became of a member stands where the member stood. -/
theorem run_expandMembers_middle (v : Vocabulary) (scope : Scope) (ts us : List Tree) (t : Tree)
    (s : ExpandState) :
    ((expandMembers v scope (ts ++ t :: us)).run s).1 =
      let before := (expandMembers v scope ts).run s
      let middle := (expandMemberIn v scope t).run before.2
      before.1 ++ (middle.1 ++ ((expandMembers v scope us).run middle.2).1) := by
  simp only [run_expandMembers_append, run_expandMembers_cons]

/-- What becomes of a slot. -/
def expandSlot (v : Vocabulary) : Slot Tree → ExpandM (Slot Tree)
  | .one c => .one <$> expandUnit v c
  | .members scope ms => .members scope <$> expandMembers v scope ms

/-- **The equation of expansion**, with no rounds in it. -/
theorem outline_expandUnit (v : Vocabulary) (t : Tree) :
    (fun u => (u.outline, u.slots)) <$> expandUnit v t =
      (t.outline, ·) <$> t.slots.mapM (expandSlot v) := by
  rw [expandUnit, outline_expandRounds]
  congr 1
  refine mapM_congr fun l hl => ?_
  have hle : ∀ c ∈ l.children, c.expansionDepth ≤ t.expansionDepth := fun c hc => by
    have := Tree.depth_child_le (Tree.mem_children_iff.mpr ⟨l, hl, hc⟩)
    omega
  have hslot : expandSlot v l = expandSlotBy v (expandUnit v) (expandUnit v) l := by
    cases l with
    | one c => rfl
    | members scope ms =>
      simp only [expandSlot, expandSlotBy, expandMembers_eq, ← comp_map]
      rfl
  rw [hslot]
  refine expandSlotBy_congr (fun c hc => expandRounds_eq_expandUnit v c _ (hle c hc)) ?_
  intro c hc u hu
  have := hle c hc
  obtain ⟨k, hk⟩ : ∃ k, t.expansionDepth = k + 1 := ⟨t.expansionDepth - 1, by omega⟩
  rw [hk]
  exact expandRounds_eq_expandUnit v u k (by omega)

/-- A run keeps the outline and expands the slots in order. -/
theorem run_expandUnit (v : Vocabulary) (t : Tree) (s : ExpandState) :
    ((expandUnit v t).run s).1.outline = t.outline ∧
      (t.slots.mapM (expandSlot v)).run s =
        (((expandUnit v t).run s).1.slots, ((expandUnit v t).run s).2) := by
  have h : (fun p : Tree × ExpandState => ((p.1.outline, p.1.slots), p.2))
        ((expandUnit v t).run s) =
      (fun p : List (Slot Tree) × ExpandState => ((t.outline, p.1), p.2))
        ((t.slots.mapM (expandSlot v)).run s) := congrFun (outline_expandUnit v t) s
  simp only [Prod.mk.injEq] at h
  exact ⟨h.1.1, Prod.ext h.1.2.symm h.2.symm⟩

/-- A run is what its slots come to. -/
theorem run_expandUnit_eq {v : Vocabulary} {t u : Tree} {s s' : ExpandState}
    (ho : u.outline = t.outline) (hs : (t.slots.mapM (expandSlot v)).run s = (u.slots, s')) :
    (expandUnit v t).run s = (u, s') := by
  obtain ⟨ho', hs'⟩ := run_expandUnit v t s
  rw [hs, Prod.mk.injEq] at hs'
  exact Prod.ext (Tree.eq_of_outline (ho'.trans ho.symm) hs'.1.symm) hs'.2.symm

theorem Shape.methodHead?_form {α β : Type} (s : Shape α β) :
    s.form.methodHead? = s.methodHead? := by
  cases s <;> simp [form, methodHead?, map, bimap, MethodDef.bimap, Modifiers.map]

/-- The outline of a tree tells what stands in front of a method. -/
theorem Tree.methodHead?_of_outline {t u : Tree} (h : u.outline = t.outline) :
    u.methodHead? = t.methodHead? := by
  have hform : u.shape.form = t.shape.form := congrArg Prod.fst h
  calc u.methodHead? = u.shape.form.methodHead? := (Shape.methodHead?_form _).symm
    _ = t.shape.form.methodHead? := by rw [hform]
    _ = t.methodHead? := Shape.methodHead?_form _

/-! ## 3. What every step is, a run is

A run is made of steps on members, one after the other.  So a property of steps that holds of doing
nothing, and of one step after another, holds of a run if it holds of each `expand`. -/

section

variable {P : ∀ {α : Type}, ExpandM α → Prop} (hpure : ∀ {α : Type} (a : α), P (pure a))
  (hbind : ∀ {α β : Type} {x : ExpandM α} {f : α → ExpandM β}, P x → (∀ a, P (f a)) → P (x >>= f))
include hpure hbind

theorem map_of_steps {α β : Type} {x : ExpandM α} (g : α → β) (h : P x) : P (g <$> x) := by
  rw [map_eq_pure_bind]
  exact hbind h fun a => hpure (g a)

theorem mapM_of_steps {α β : Type} {f : α → ExpandM β} :
    ∀ {l : List α}, (∀ a ∈ l, P (f a)) → P (l.mapM f)
  | [], _ => hpure []
  | a :: l, h => by
    rw [List.mapM_cons]
    have hrest := mapM_of_steps fun b hb => h b (List.mem_cons_of_mem _ hb)
    exact hbind (h a List.mem_cons_self) fun b => hbind hrest fun bs => hpure _

section

variable (hfresh : ∀ hint, P (ExpandM.fresh hint)) (hfreshFrom : ∀ n, P (ExpandM.freshFrom n))
include hfresh hfreshFrom

theorem stagedNames_of_steps (e : Extension) (target : Target) : P (e.stagedNames target) := by
  refine hbind (hfreshFrom _) fun _ => hbind (hfresh _) fun _ => hbind (hfresh _) fun _ => ?_
  exact hbind (mapM_of_steps hpure hbind fun _ _ => hfresh _) fun _ => hpure _

/-- Looking at a member takes findings down and generates names, and does nothing else. -/
theorem expand_of_steps
    (hwrite : ∀ new, P (modify fun s => { s with findings := s.findings ++ new } : ExpandM Unit))
    (v : Vocabulary) (scope : Scope) (t : Tree) : P (expand v scope t) := by
  rw [expand_eq_carryOut]
  cases judge v scope t with
  | keep remarks => exact hbind (hwrite (remarks.map .remark)) fun _ => hpure Expansion.kept
  | drop faults => exact hbind (hwrite (faults.map .fault)) fun _ => hpure Expansion.dropped
  | extend spelling e target =>
    have hgenerate : P (e.generate v target) := by
      unfold Extension.generate
      split
      · exact hbind (stagedNames_of_steps hpure hbind hfresh hfreshFrom e target) fun _ => hpure _
      · exact hbind (hfreshFrom _) fun _ => hbind (hwrite [_]) fun _ => hpure _
    exact hbind (hwrite (spelling.map .fault)) fun _ => hbind hgenerate fun _ => hpure _

end

variable {v : Vocabulary} (hstep : ∀ scope t, P (expand v scope t))
include hstep

theorem expandMember_of_steps {again : Tree → ExpandM Tree} (ha : ∀ u, P (again u)) (scope : Scope)
    {t : Tree} {inside : ExpandM Tree} (hi : P inside) :
    P (expandMember (expand v) again scope (t, inside)) := by
  refine hbind (hstep scope t) fun o => ?_
  cases o with
  | kept => exact hbind hi fun u => hpure _
  | replaced trees => exact mapM_of_steps hpure hbind fun u _ => ha u
  | dropped => exact hpure _

/-- **What every step on a member is, a run is.** -/
theorem expandUnit_of_steps (t : Tree) : P (expandUnit v t) :=
  expandRounds_of_looks hpure hbind hstep t.expansionDepth t

theorem expandMembers_of_steps (scope : Scope) (ts : List Tree) : P (expandMembers v scope ts) := by
  rw [expandMembers_eq]
  refine map_of_steps hpure hbind _ (mapM_of_steps hpure hbind fun t _ => ?_)
  exact expandMember_of_steps hpure hbind hstep (expandUnit_of_steps hpure hbind hstep) scope
    (expandUnit_of_steps hpure hbind hstep t)

end

end Enrich
