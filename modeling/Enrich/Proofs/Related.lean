import Enrich.Extension.Expansion
import Enrich.Proofs.Slots
import Mathlib.Logic.Function.Basic
/-!
# One driver over two kinds of steps

The driver (`expandRounds`) asks what is to become of a member and knows nothing of how that is
found out.  So two kinds of looks at a member that are related are related over a whole run: all
that is needed is that the relation holds of doing nothing, and of one step after another.

With a relation between a look and itself this says what every run is; with a relation between a
look and the same look on the record it says what a record of a run is.

Two looks may be related only where a tree has a property `P`.  That will do if `P` passes to the
children of a tree and to what is generated in a look.

* `rebuild_related`: a pass on members, whatever is done to the lists of members.
* `expandRounds_related_on`, `expandRounds_related`: the driver.
* `expandRounds_of_looks`: the driver, for a property of steps.
-/

namespace Enrich

/-- All that is generated has the property. -/
def Expansion.All (P : Tree → Prop) : Expansion → Prop
  | .replaced trees => ∀ u ∈ trees, P u
  | .kept | .dropped => True

section

variable {m m' : Type → Type} [Monad m] [Monad m'] [LawfulMonad m] [LawfulMonad m']
  {R : ∀ {α : Type}, m α → m' α → Prop} (hpure : ∀ {α : Type} (a : α), R (pure a) (pure a))
  (hbind : ∀ {α β : Type} {x : m α} {y : m' α} {f : α → m β} {g : α → m' β},
    R x y → (∀ a, R (f a) (g a)) → R (x >>= f) (y >>= g))
include hpure hbind

theorem map_related {α β : Type} {x : m α} {y : m' α} (g : α → β) (h : R x y) :
    R (g <$> x) (g <$> y) := by
  rw [map_eq_pure_bind, map_eq_pure_bind]
  exact hbind h fun a => hpure (g a)

theorem mapM_related {α β : Type} {f : α → m β} {g : α → m' β} :
    ∀ {l : List α}, (∀ a ∈ l, R (f a) (g a)) → R (l.mapM f) (l.mapM g)
  | [], _ => hpure []
  | a :: l, h => by
    rw [List.mapM_cons, List.mapM_cons]
    have hrest := mapM_related fun b hb => h b (List.mem_cons_of_mem _ hb)
    exact hbind (h a List.mem_cons_self) fun b => hbind hrest fun bs => hpure (b :: bs)

section

variable {P : Tree → Prop} (hchild : ∀ {t c : Tree}, P t → c ∈ t.shape.children → P c)
include hchild

/-- Passes on members are related on a tree with `P` if what they do to the lists of members is. -/
theorem rebuild_related {f : Scope → List (Tree × m Tree) → m (List Tree) → m (List Tree)}
    {g : Scope → List (Tree × m' Tree) → m' (List Tree) → m' (List Tree)}
    (h : ∀ scope (ts : List Tree),
      (∀ t ∈ ts, P t ∧ R (t.rebuild (.onMembers f)) (t.rebuild (.onMembers g))) →
      R ((Rebuild.onMembers f).memberList scope (ts.map fun t => (t, t.rebuild (.onMembers f))))
        ((Rebuild.onMembers g).memberList scope (ts.map fun t => (t, t.rebuild (.onMembers g)))))
    (t : Tree) (ht : P t) : R (t.rebuild (.onMembers f)) (t.rebuild (.onMembers g)) := by
  induction t using Tree.induction with
  | step t _ ih =>
    have hslot : ∀ l ∈ t.slots, R (Tree.rebuildSlot f l) (Tree.rebuildSlot g l) := by
      intro l hl
      have hin : ∀ c ∈ l.children,
          P c ∧ R (c.rebuild (.onMembers f)) (c.rebuild (.onMembers g)) := by
        intro c hc
        have hmem := Tree.mem_children_iff.mpr ⟨l, hl, hc⟩
        exact ⟨hchild ht hmem, ih c hmem (hchild ht hmem)⟩
      cases l with
      | one c => exact map_related hpure hbind _ (hin c (List.mem_singleton_self c)).2
      | members scope ts => exact map_related hpure hbind _ (h scope ts hin)
    have hparts : R ((fun u : Tree => (u.outline, u.slots)) <$> t.rebuild (.onMembers f))
        ((fun u : Tree => (u.outline, u.slots)) <$> t.rebuild (.onMembers g)) := by
      rw [Tree.outline_rebuild, Tree.outline_rebuild]
      exact map_related hpure hbind _ (mapM_related hpure hbind hslot)
    -- a tree can be had back from its outline and its slots
    obtain ⟨back, hback⟩ : ∃ back, Function.LeftInverse back
        fun u : Tree => (u.outline, u.slots) := by
      have hinj : Function.Injective fun u : Tree => (u.outline, u.slots) := fun u u' h =>
        Tree.eq_of_outline (congrArg Prod.fst h) (congrArg Prod.snd h)
      have : Nonempty Tree := ⟨t⟩
      exact hinj.hasLeftInverse
    have h := map_related hpure hbind back hparts
    rwa [← comp_map, ← comp_map, hback.comp_eq_id, id_map, id_map] at h

variable {look : Scope → Tree → m Expansion} {look' : Scope → Tree → m' Expansion}
  (hlook : ∀ scope {t : Tree}, P t → ∀ {β : Type} {f : Expansion → m β} {g : Expansion → m' β},
    (∀ o : Expansion, o.All P → R (f o) (g o)) → R (look scope t >>= f) (look' scope t >>= g))
include hlook

omit hchild in
theorem expandMember_related {again : Tree → m Tree} {again' : Tree → m' Tree}
    (ha : ∀ u, P u → R (again u) (again' u)) (scope : Scope) {t : Tree} (ht : P t)
    {inside : m Tree} {inside' : m' Tree} (hi : R inside inside') :
    R (expandMember look again scope (t, inside))
      (expandMember look' again' scope (t, inside')) := by
  refine hlook scope ht fun o ho => ?_
  cases o with
  | kept => exact hbind hi fun u => hpure [u]
  | replaced trees => exact mapM_related hpure hbind fun u hu => ha u (ho u hu)
  | dropped => exact hpure []

private theorem expanding_related {again : Tree → m Tree} {again' : Tree → m' Tree}
    (ha : ∀ u, P u → R (again u) (again' u)) (t : Tree) (ht : P t) :
    R (t.rebuild (.expanding look again)) (t.rebuild (.expanding look' again')) := by
  refine rebuild_related hpure hbind hchild (fun scope ts hin => ?_) t ht
  simp only [Rebuild.memberList, Rebuild.onMembers, List.mapM_map]
  refine hbind (mapM_related hpure hbind fun u hu => ?_) fun l => hpure l.flatten
  obtain ⟨hP, hR⟩ := hin u hu
  exact expandMember_related hpure hbind hlook ha scope hP hR

/-- **Looks that are related on trees with `P` make related runs on them**, if all that is generated
in a look has `P`. -/
theorem expandRounds_related_on (n : Nat) :
    ∀ t, P t → R (expandRounds look n t) (expandRounds look' n t) := by
  induction n with
  | zero => exact expanding_related hpure hbind hchild hlook fun u _ => hpure u
  | succ n ih => exact expanding_related hpure hbind hchild hlook ih

end

/-- **Related looks make related runs.** -/
theorem expandRounds_related {look : Scope → Tree → m Expansion}
    {look' : Scope → Tree → m' Expansion} (hlook : ∀ scope t, R (look scope t) (look' scope t))
    (n : Nat) (t : Tree) : R (expandRounds look n t) (expandRounds look' n t) :=
  expandRounds_related_on hpure hbind (P := fun _ => True) (fun _ _ => trivial)
    (fun scope t _ => fun {_ _ _} hf =>
      hbind (hlook scope t) fun o => hf o (by cases o <;> simp [Expansion.All]))
    n t trivial

end

/-- **What every look is, a run is.** -/
theorem expandRounds_of_looks {m : Type → Type} [Monad m] [LawfulMonad m]
    {P : ∀ {α : Type}, m α → Prop} (hpure : ∀ {α : Type} (a : α), P (pure a))
    (hbind : ∀ {α β : Type} {x : m α} {f : α → m β}, P x → (∀ a, P (f a)) → P (x >>= f))
    {look : Scope → Tree → m Expansion} (hlook : ∀ scope t, P (look scope t)) (n : Nat)
    (t : Tree) : P (expandRounds look n t) := by
  -- a step is related to itself if it has the property
  have h := expandRounds_related (R := fun x y => x = y ∧ P x) (fun a => ⟨rfl, hpure a⟩)
    (fun hx hf => ⟨by rw [hx.1, funext fun a => (hf a).1], hbind hx.2 fun a => (hf a).2⟩)
    (fun scope t => ⟨rfl, hlook scope t⟩) n t
  exact h.2

end Enrich
