import Enrich.Proofs.Counterparts
import Enrich.Proofs.Looks
/-!
# Two runs in lockstep

Two trees that are the same but for some members are expanded side by side.  If each pair of such
members is replaced by the same code, or dropped, then the two runs go the same: look by look they
do the same, generate the same names, and in the end yield the same tree.  What is said about the
members need not be the same, so the findings are left out of the comparison.  They are compared
look by look, on the record.

The induction is on the trees, for what is inside, and on the rounds, for generated code, which is
the same but for such members again.

* `Lockstep.bind`, `Lockstep.mapM`: steps one after the other.
* `lockstep_expandRecorded`: a look at a member.
* `lockstep_expandRounds`, `expandUnit_sameBut`: the main statements.
-/

namespace Enrich

/-! ## 1. Steps side by side -/

/-- In states with the same names, the two steps yield what `Q` relates, and they leave the same
names. -/
def Alongside {α : Type} (Q : α → α → Prop) (x y : ExpandM α) : Prop :=
  ∀ s s' : ExpandState, s.supply = s'.supply →
    Q (x.run s).1 (y.run s').1 ∧ (x.run s).2.supply = (y.run s').2.supply

namespace Alongside

variable {α β : Type} {Q : α → α → Prop} {Q' : β → β → Prop}

theorem pure {a b : α} (h : Q a b) : Alongside Q (pure a) (pure b) := fun _ _ hs => ⟨h, hs⟩

theorem bind {x y : ExpandM α} {f g : α → ExpandM β} (hx : Alongside Q x y)
    (hf : ∀ a b, Q a b → Alongside Q' (f a) (g b)) : Alongside Q' (x >>= f) (y >>= g) := by
  intro s s' hs
  obtain ⟨hq, hsupply⟩ := hx s s' hs
  exact hf _ _ hq _ _ hsupply

/-- A name is generated from the names that there are, and from nothing else. -/
theorem fresh (hint : String) : Alongside Eq (ExpandM.fresh hint) (ExpandM.fresh hint) := by
  intro s s' hs
  have h : s.supply.fresh hint = s'.supply.fresh hint := by rw [hs]
  exact ⟨congrArg (fun p => p.1) h, congrArg (fun p => p.2) h⟩

theorem freshFrom (base : Name) :
    Alongside Eq (ExpandM.freshFrom base) (ExpandM.freshFrom base) := by
  intro s s' hs
  have h : s.supply.freshFrom base = s'.supply.freshFrom base := by rw [hs]
  exact ⟨congrArg (fun p => p.1) h, congrArg (fun p => p.2) h⟩

end Alongside

/-- Two recorded steps go the same, whatever is on the record so far: they yield what `Q` relates,
leave the same names, and record looks that `P` relates one by one. -/
def Lockstep {α : Type} (P : Look → Look → Prop) (Q : α → α → Prop)
    (x y : StateT (List Look) ExpandM α) : Prop :=
  ∀ old old', Alongside (fun out out' => Q out.1 out'.1 ∧ ∃ new new',
    out.2 = old ++ new ∧ out'.2 = old' ++ new' ∧ List.Forall₂ P new new') (x.run old) (y.run old')

namespace Lockstep

variable {α β : Type} {P : Look → Look → Prop} {Q : α → α → Prop} {Q' : β → β → Prop}

theorem pure {a b : α} (h : Q a b) : Lockstep P Q (pure a) (pure b) := fun _ _ =>
  .pure ⟨h, [], [], (List.append_nil _).symm, (List.append_nil _).symm, .nil⟩

theorem bind {x y : StateT (List Look) ExpandM α} {f g : α → StateT (List Look) ExpandM β}
    (hx : Lockstep P Q x y) (hf : ∀ a b, Q a b → Lockstep P Q' (f a) (g b)) :
    Lockstep P Q' (x >>= f) (y >>= g) := by
  intro old old'
  rw [StateT.run_bind, StateT.run_bind]
  refine (hx old old').bind ?_
  rintro ⟨a, _⟩ ⟨b, _⟩ ⟨hq, new, new', rfl, rfl, hnew⟩ s s' hs
  obtain ⟨⟨hq', more, more', hmore, hmore', hP⟩, hsupply⟩ :=
    hf a b hq (old ++ new) (old' ++ new') s s' hs
  rw [List.append_assoc] at hmore hmore'
  exact ⟨⟨hq', new ++ more, new' ++ more', hmore, hmore', List.rel_append hnew hP⟩, hsupply⟩

theorem map {x y : StateT (List Look) ExpandM α} {f g : α → β} (hx : Lockstep P Q x y)
    (hf : ∀ a b, Q a b → Q' (f a) (g b)) : Lockstep P Q' (f <$> x) (g <$> y) := by
  rw [map_eq_pure_bind, map_eq_pure_bind]
  exact hx.bind fun a b h => .pure (hf a b h)

/-- What two steps yield is the same if what is read off it is. -/
theorem of_map {x y : StateT (List Look) ExpandM α} {f : α → β} (hf : Function.Injective f)
    (h : Lockstep P Eq (f <$> x) (f <$> y)) : Lockstep P Eq x y := by
  intro old old' s s' hs
  obtain ⟨⟨heq, hlooks⟩, hsupply⟩ := h old old' s s' hs
  exact ⟨⟨hf heq, hlooks⟩, hsupply⟩

theorem mapM {γ : Type} {f g : γ → StateT (List Look) ExpandM β} {l l' : List γ}
    (h : List.Forall₂ (fun a b => Lockstep P Eq (f a) (g b)) l l') :
    Lockstep P Eq (l.mapM f) (l'.mapM g) := by
  induction h with
  | nil => exact .pure rfl
  | cons hfirst _ ih =>
    rw [List.mapM_cons, List.mapM_cons]
    refine hfirst.bind ?_
    rintro b _ rfl
    refine ih.bind ?_
    rintro bs _ rfl
    exact .pure rfl

end Lockstep

/-! ## 2. One member -/

section

variable {C : Tree → Tree → Prop} {v : Vocabulary}

theorem Extension.alongside_stagedNames (e : Extension) (target : Target) :
    Alongside Eq (e.stagedNames target) (e.stagedNames target) := by
  have hbind : ∀ {α β : Type} {x : ExpandM α} {f : α → ExpandM β}, Alongside Eq x x →
      (∀ a, Alongside Eq (f a) (f a)) → Alongside Eq (x >>= f) (x >>= f) := fun hx hf =>
    hx.bind fun a _ h => h ▸ hf a
  exact stagedNames_of_steps (P := fun x => Alongside Eq x x) (fun a => .pure rfl) hbind
    Alongside.fresh Alongside.freshFrom e target

/-- **What replaces two extensions** that are the same but for such members. -/
theorem Extension.SameBut.alongside_generate (hC : Corresponds C) {e e' : Extension}
    (h : Extension.SameBut C e e') (target : Target) :
    Alongside (List.Forall₂ (Tree.SameBut C none)) (e.generate v target)
      (e'.generate v target) := by
  have hnames : e'.stagedNames target = e.stagedNames target := by
    simp only [Extension.stagedNames, h.method.name_eq, h.method.tparams_eq]
  unfold Extension.generate
  rw [← h.kind, ← h.method.name_eq, hnames]
  cases e.kind with
  | staged =>
    refine (e.alongside_stagedNames target).bind ?_
    rintro names _ rfl
    exact .pure (h.stagedTrees hC target names)
  | runtime =>
    refine (Alongside.freshFrom e.method.name).bind ?_
    rintro group _ rfl
    refine Alongside.bind (Q := fun _ _ => True) (fun s s' hs => ⟨trivial, hs⟩) fun _ _ _ => ?_
    exact .pure (.cons (h.runtimeTree target group) .nil)

/-- The outcomes of two looks are the same but for such members.  Code that replaces a member is
less deep than `k`, and if the member is kept then `stays` holds. -/
inductive Expansion.SameBut (C : Tree → Tree → Prop) (k : Nat) (stays : Prop) :
    Expansion → Expansion → Prop
  | kept (h : stays) : SameBut C k stays .kept .kept
  | replaced {trees trees' : List Tree}
      (h : List.Forall₂ (fun x y => x.expansionDepth < k ∧ Tree.SameBut C none x y) trees trees') :
      SameBut C k stays (.replaced trees) (.replaced trees')
  | dropped : SameBut C k stays .dropped .dropped

/-- Two verdicts do the same but for such members; what they say need not be the same. -/
inductive Verdict.Parallel (C : Tree → Tree → Prop) : Verdict → Verdict → Prop
  | keep (remarks remarks' : List Remark) : Parallel C (.keep remarks) (.keep remarks')
  | drop (faults faults' : List Fault) : Parallel C (.drop faults) (.drop faults')
  | extend (spelling spelling' : List Fault) {e e' : Extension} (target : Target)
      (h : Extension.SameBut C e e') :
      Parallel C (.extend spelling e target) (.extend spelling' e' target)

theorem Verdict.SameBut.parallel {j j' : Verdict} (h : Verdict.SameBut C j j') :
    Verdict.Parallel C j j' := by
  cases h with
  | keep remarks => exact .keep remarks remarks
  | drop faults => exact .drop faults faults
  | extend spelling target h => exact .extend spelling spelling target h

/-- **Two looks with parallel verdicts.** -/
theorem alongside_expand (hC : Corresponds C) {scope : Scope} {t u : Tree}
    (h : Verdict.Parallel C (judge v scope t) (judge v scope u)) :
    Alongside (Expansion.SameBut C t.expansionDepth (∃ remarks, judge v scope t = .keep remarks))
      (expand v scope t) (expand v scope u) := by
  intro s s' hs
  generalize hj : judge v scope t = j, hj' : judge v scope u = j' at h
  cases h with
  | keep remarks remarks' =>
    rw [run_expand_of_keep hj, run_expand_of_keep hj']
    exact ⟨.kept ⟨remarks, rfl⟩, hs⟩
  | drop faults faults' =>
    rw [run_expand_of_drop hj, run_expand_of_drop hj']
    exact ⟨.dropped, hs⟩
  | extend spelling spelling' target he =>
    rw [run_expand_of_extend hj, run_expand_of_extend hj']
    obtain ⟨htrees, hsupply⟩ := he.alongside_generate (v := v) hC target
      { s with findings := s.findings ++ spelling.map .fault }
      { s' with findings := s'.findings ++ spelling'.map .fault } hs
    have hdepth := depth_lt_of_extend hj (Extension.yields_generate v _ target
      { s with findings := s.findings ++ spelling.map .fault })
    exact ⟨.replaced ((List.forall₂_and_left _ _).mpr ⟨hdepth, htrees⟩), hsupply⟩

/-! ## 3. All members -/

/-- Two looks go together: they are at members that are the same but for such members, and find the
same in them; or they are at a pair of such members. -/
inductive Look.SameBut (C : Tree → Tree → Prop) (v : Vocabulary) : Look → Look → Prop
  | same {l l' : Look} (scope : l.scope = l'.scope)
      (member : Tree.SameBut C none l.member l'.member) (findings : l.findings v = l'.findings v) :
      SameBut C v l l'
  | pair {l l' : Look} (scope : l.scope = .container) (scope' : l'.scope = .container)
      (members : C l.member l'.member) : SameBut C v l l'

theorem Verdict.SameBut.findings_eq {j j' : Verdict} (h : Verdict.SameBut C j j') :
    j.findings = j'.findings := by
  cases h with
  | keep remarks => rfl
  | drop faults => rfl
  | extend spelling target h =>
    simp only [Verdict.findings, Extension.findings, h.kind, h.method.name_eq, h.span]

/-- Two recorded looks go together if the looks do. -/
theorem lockstep_expandRecorded {P : Look → Look → Prop} {Q : Expansion → Expansion → Prop}
    {scope : Scope} {t u : Tree} (h : Alongside Q (expand v scope t) (expand v scope u))
    (hP : ∀ o o', P ⟨scope, t, o⟩ ⟨scope, u, o'⟩) :
    Lockstep P Q (expandRecorded v scope t) (expandRecorded v scope u) := by
  intro old old' s s' hs
  obtain ⟨hq, hsupply⟩ := h s s' hs
  exact ⟨⟨hq, [_], [_], rfl, rfl, .cons (hP _ _) .nil⟩, hsupply⟩

/-- The members of a pair are never kept, and they are replaced in the same way or both dropped. -/
structure ExpandAlike (C : Tree → Tree → Prop) (v : Vocabulary) : Prop where
  parallel : ∀ x y, C x y → Verdict.Parallel C (judge v .container x) (judge v .container y)
  ne_keep : ∀ x y, C x y → ∀ remarks, judge v .container x ≠ .keep remarks

/-- Two trees go the same in a place: on their own if they are single, as members if they are
among members. -/
def GoesSame (C : Tree → Tree → Prop) (v : Vocabulary)
    (again : Tree → StateT (List Look) ExpandM Tree) : Option Scope → Tree → Tree → Prop
  | none, t, u => Lockstep (Look.SameBut C v) Eq
      (t.rebuild (.expanding (expandRecorded v) again))
      (u.rebuild (.expanding (expandRecorded v) again))
  | some scope, t, u => Lockstep (Look.SameBut C v) Eq
      (expandMember (expandRecorded v) again scope
        (t, t.rebuild (.expanding (expandRecorded v) again)))
      (expandMember (expandRecorded v) again scope
        (u, u.rebuild (.expanding (expandRecorded v) again)))

section

variable {again : Tree → StateT (List Look) ExpandM Tree} {k : Nat}

/-- **What is inside two trees goes the same** if it does piece by piece. -/
theorem goesSame_node {w : Shape Tree (Tree × Tree)} {span : Span} {ty : Option Name}
    (h : ∀ l ∈ w.slots, ∀ p ∈ l.children, GoesSame C v again l.scope? p.1 p.2) :
    GoesSame C v again none ⟨w.map Prod.fst, span, ty⟩ ⟨w.map Prod.snd, span, ty⟩ := by
  let onList : Scope → List (Tree × StateT (List Look) ExpandM Tree) →
      StateT (List Look) ExpandM (List Tree) → StateT (List Look) ExpandM (List Tree) :=
    fun scope ts _ => do return (← ts.mapM (expandMember (expandRecorded v) again scope)).flatten
  have hslot : ∀ l ∈ w.slots, Lockstep (Look.SameBut C v) Eq
      (Tree.rebuildSlot onList (l.map Prod.fst)) (Tree.rebuildSlot onList (l.map Prod.snd)) := by
    intro l hl
    cases l with
    | one p =>
      have hp : Lockstep _ Eq _ _ := h _ hl p (List.mem_singleton_self p)
      exact hp.map fun _ _ => congrArg Slot.one
    | members scope ps =>
      refine Lockstep.map (Q := Eq) (.bind (.mapM ?_) fun _ _ h => .pure (congrArg _ h))
        fun _ _ => congrArg (Slot.members scope)
      simp only [List.forall₂_map_left_iff, List.forall₂_map_right_iff, List.forall₂_same]
      exact fun p hp => h _ hl p hp
  -- a tree is known by its outline, which is kept, and its slots
  refine Lockstep.of_map (f := fun u : Tree => (u.outline, u.slots)) (fun u u' h => ?_) ?_
  · exact Tree.eq_of_outline (congrArg Prod.fst h) (congrArg Prod.snd h)
  · let parts (u : Tree) := (u.outline, u.slots)
    change Lockstep _ Eq (parts <$> Tree.rebuild (.onMembers onList) _)
      (parts <$> Tree.rebuild (.onMembers onList) _)
    rw [Tree.outline_rebuild, Tree.outline_rebuild]
    refine Lockstep.map (Q := Eq) ?_ fun _ _ h => ?_
    · rw [Tree.slots, Tree.slots, Shape.slots_map, Shape.slots_map]
      refine .mapM ?_
      simp only [List.forall₂_map_left_iff, List.forall₂_map_right_iff, List.forall₂_same]
      exact hslot
    · simp only [Tree.outline, Shape.form_map, h]

variable (ha : ∀ x y, Tree.SameBut C none x y → x.expansionDepth < k →
  Lockstep (Look.SameBut C v) Eq (again x) (again y))
include ha

/-- What takes the place of a member is the same if the looks at it go together. -/
theorem lockstep_expandMember {scope : Scope} {t u : Tree} {stays : Prop}
    {inside inside' : StateT (List Look) ExpandM Tree} (hk : t.expansionDepth ≤ k)
    (hlook : Lockstep (Look.SameBut C v) (Expansion.SameBut C t.expansionDepth stays)
      (expandRecorded v scope t) (expandRecorded v scope u))
    (hi : stays → Lockstep (Look.SameBut C v) Eq inside inside') :
    Lockstep (Look.SameBut C v) Eq (expandMember (expandRecorded v) again scope (t, inside))
      (expandMember (expandRecorded v) again scope (u, inside')) := by
  refine hlook.bind fun o o' ho => ?_
  cases ho with
  | kept h =>
    refine (hi h).bind ?_
    rintro x _ rfl
    exact .pure rfl
  | replaced h =>
    refine .mapM (h.imp fun x y hxy => ?_)
    exact ha x y hxy.2 (Nat.lt_of_lt_of_le hxy.1 hk)
  | dropped => exact .pure rfl

/-- **Two trees go the same.** -/
theorem goesSame_of_sameBut (hC : Corresponds C) (halike : ExpandAlike C v) {place : Option Scope}
    {t u : Tree} (h : Tree.SameBut C place t u) (hk : t.expansionDepth ≤ k) :
    GoesSame C v again place t u := by
  induction h with
  | @node place w span ty inside ih =>
    have hin : GoesSame C v again none ⟨w.map Prod.fst, span, ty⟩ ⟨w.map Prod.snd, span, ty⟩ := by
      refine goesSame_node fun l hl p hp => ih l hl p hp ?_
      have hchild : p.1 ∈ (w.map Prod.fst).children := by
        rw [Shape.map, Shape.children_bimap]
        exact List.mem_map_of_mem
          (by rw [Shape.children_eq_slots]; exact List.mem_flatMap.mpr ⟨l, hl, hp⟩)
      have := Tree.depth_child_le (t := ⟨w.map Prod.fst, span, ty⟩) hchild
      omega
    cases place with
    | none => exact hin
    | some scope =>
      have hsame : Tree.SameBut C none ⟨w.map Prod.fst, span, ty⟩ ⟨w.map Prod.snd, span, ty⟩ :=
        .node w span ty inside
      have hj := judge_sameBut hC v scope hsame
      have hlook := lockstep_expandRecorded (P := Look.SameBut C v)
        (alongside_expand hC hj.parallel) fun o o' => .same rfl hsame hj.findings_eq
      exact lockstep_expandMember ha hk hlook fun _ => hin
  | @member x y h =>
    have hlook := lockstep_expandRecorded (P := Look.SameBut C v)
      (alongside_expand hC (halike.parallel x y h)) fun o o' => .pair rfl rfl h
    refine lockstep_expandMember ha hk hlook ?_
    rintro ⟨remarks, hkeep⟩
    exact absurd hkeep (halike.ne_keep x y h remarks)

end

/-! ## 4. A unit -/

variable (hC : Corresponds C) (halike : ExpandAlike C v)
include hC halike

/-- **Two runs go the same**, with enough rounds. -/
theorem lockstep_expandRounds (n : Nat) : ∀ {t u : Tree}, Tree.SameBut C none t u →
    t.expansionDepth ≤ n → Lockstep (Look.SameBut C v) Eq
      (expandRounds (expandRecorded v) n t) (expandRounds (expandRecorded v) n u) := by
  induction n with
  | zero =>
    -- nothing is left to be generated
    exact fun h hn => goesSame_of_sameBut (fun _ _ _ hlt => absurd hlt (Nat.not_lt_zero _))
      hC halike h hn
  | succ n ih =>
    exact fun h hn => goesSame_of_sameBut (fun _ _ hxy hlt => ih hxy (Nat.le_of_lt_succ hlt))
      hC halike h hn

/-- **The runs on two units that are the same but for such members** come to the same tree and the
same names, and their looks go together. -/
theorem expandUnit_sameBut {t u : Tree} (h : Tree.SameBut C none t u) {s s' : ExpandState}
    (hs : s.supply = s'.supply) :
    ((expandUnit v t).run s).1 = ((expandUnit v u).run s').1 ∧
      ((expandUnit v t).run s).2.supply = ((expandUnit v u).run s').2.supply ∧
      List.Forall₂ (Look.SameBut C v) (looks v t s) (looks v u s') := by
  have hrun := (recorded_expandUnit v t s).run
  have hrun' := (recorded_expandUnit v u s').run
  have hrounds := lockstep_expandRounds hC halike t.expansionDepth h (Nat.le_refl _) [] [] s s' hs
  rw [← h.expansionDepth_eq hC.depth] at hrun'
  rw [hrun, hrun'] at hrounds
  obtain ⟨⟨htree, new, new', hnew, hnew', hlooks⟩, hsupply⟩ := hrounds
  obtain rfl : looks v t s = new := hnew
  obtain rfl : looks v u s' = new' := hnew'
  exact ⟨htree, hsupply, hlooks⟩

end

end Enrich
