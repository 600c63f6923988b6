import Enrich.Tree.Rebuild
import Enrich.Tree.Sites
import Enrich.Tree.Visit
/-!
# The two traversals agree

An observer and a rebuilding pass each walk a tree in their own way.  Let both do the same thing,
any thing, at every tree, value definition and method they enter, and then go on inside.  Both are
then one and the same loop over the sites of the tree, in reading order, and the rebuilding pass
gives back the tree it was given.  So what a pass sees on its way and what an observer sees on its
way can be exchanged for each other, whatever the effect, and a pass without handlers is the
identity.

* `Reads`: an action that enters given sites, one after the other, and does nothing else.
* `Tree.reads_visit`, `Tree.reads_rebuild`: so do the two traversals.
* `Tree.log_visit_eq_log_rebuild`: the result.
-/

namespace Enrich

variable {m : Type → Type} {α β γ : Type}

/-! ## 1. Doing something at every site -/

/-- The observer that does something at every site it enters. -/
def Visit.entering [Monad m] (enter : Site → m Unit) : Visit m where
  tree t inside := do
    enter (.tree t)
    inside
  value d inside := do
    enter (.value d)
    inside
  method d inside := do
    enter (.method d)
    inside

/-- The pass that does something at every site it enters, and changes nothing. -/
def Rebuild.entering [Monad m] (enter : Site → m Unit) : Rebuild m where
  tree t rebuilt := do
    enter (.tree t)
    rebuilt
  value d rebuilt := do
    enter (.value d)
    rebuilt
  method d rebuilt := do
    enter (.method d)
    rebuilt

/-- The action `x` enters the given sites, one after the other, and answers `a`. -/
def Reads [Monad m] (enter : Site → m Unit) (x : m α) (sites : List Site) (a : α) : Prop :=
  x = do
    sites.forM enter
    return a

section

variable [Monad m] [LawfulMonad m] {enter : Site → m Unit}

namespace Reads

theorem pure (a : α) : Reads enter (Pure.pure a : m α) [] a := by
  simp [Reads]

/-- A pass that goes on with another reads what both read. -/
theorem bind {x : m α} {f : α → m β} {l l' : List Site} {a : α} {b : β}
    (hx : Reads enter x l a) (hf : Reads enter (f a) l' b) : Reads enter (x >>= f) (l ++ l') b := by
  rw [Reads] at *
  simp [hx, hf]

/-- One action after another. -/
theorem andThen {x : m Unit} {y : m β} {l l' : List Site} {b : β}
    (hx : Reads enter x l ()) (hy : Reads enter y l' b) :
    Reads enter (do x; y) (l ++ l') b :=
  hx.bind hy

/-- A last step that only puts the answer together. -/
theorem answer {x : m α} {l : List Site} {a : α} (hx : Reads enter x l a) (f : α → β) :
    Reads enter (do return f (← x)) l (f a) := by
  rw [Reads] at *
  simp [hx]

/-- A site is read before what is in it. -/
theorem entering {x : m α} {l : List Site} {a : α} (s : Site) (hx : Reads enter x l a) :
    Reads enter (do enter s; x) (s :: l) a := by
  rw [Reads] at *
  simp [hx]

/-- A loop reads what its turns read. -/
theorem mapM {f : β → m γ} {inside : β → List Site} {g : β → γ} :
    ∀ {l : List β}, (∀ b ∈ l, Reads enter (f b) (inside b) (g b)) →
      Reads enter (l.mapM f) (l.flatMap inside) (l.map g)
  | [], _ => by simpa using pure []
  | b :: l, h => by
    rw [List.forall_mem_cons] at h
    rw [List.mapM_cons]
    exact h.1.bind ((mapM h.2).answer (g b :: ·))

theorem forM {f : β → m Unit} {inside : β → List Site} :
    ∀ {l : List β}, (∀ b ∈ l, Reads enter (f b) (inside b) ()) →
      Reads enter (l.forM f) (l.flatMap inside) ()
  | [], _ => pure ()
  | b :: l, h => by
    rw [List.forall_mem_cons] at h
    exact h.1.andThen (forM h.2)

theorem option {f : β → m Unit} {inside : β → List Site} {o : Option β}
    (h : ∀ b ∈ o.toList, Reads enter (f b) (inside b) ()) :
    Reads enter (o.forM f) (o.toList.flatMap inside) () := by
  cases o with
  | none => simpa using pure ()
  | some b => simpa using h b (by simp)

theorem rebuildOption {f : β → m γ} {inside : β → List Site} {g : β → γ} {o : Option β}
    (h : ∀ b ∈ o.toList, Reads enter (f b) (inside b) (g b)) :
    Reads enter (rebuildOption f o) (o.toList.flatMap inside) (o.map g) := by
  cases o with
  | none => exact pure none
  | some b => simpa [Enrich.rebuildOption] using (h b (by simp)).answer some

end Reads

/-! ## 2. The observer -/

namespace Visit

variable (enter) in
/-- The visit that comes with a hole enters the sites of the tree that it comes with. -/
def Visits (b : Tree × m Unit) : Prop := Reads enter b.2 b.1.sites ()

theorem reads_valueDef {d : ValueDef Tree (Tree × m Unit)} (h : ∀ b ∈ d.children, Visits enter b) :
    Reads enter ((entering enter).valueDef d) (d.sites Prod.fst fun b => b.1.sites) () := by
  rw [ValueDef.children, List.forall_mem_append] at h
  have hparts := (Reads.option h.1).andThen (Reads.option h.2)
  rw [← List.flatMap_append] at hparts
  exact hparts.entering _

theorem reads_valueDefs {ps : List (ValueDef Tree (Tree × m Unit))}
    (h : ∀ b ∈ ps.flatMap ValueDef.children, Visits enter b) :
    Reads enter (ps.forM (entering enter).valueDef)
      (ps.flatMap (·.sites Prod.fst fun b => b.1.sites)) () :=
  Reads.forM fun d hd => reads_valueDef fun b hb => h b (List.mem_flatMap.mpr ⟨d, hd, hb⟩)

/-- A method is read parameter by parameter, then the result, then the body. -/
theorem reads_methodDef {d : MethodDef Tree (Tree × m Unit)}
    (h : ∀ b ∈ d.children, Visits enter b) :
    Reads enter ((entering enter).methodDef d) (d.sites Prod.fst fun b => b.1.sites) () := by
  rw [MethodDef.children, List.forall_mem_append, List.forall_mem_append,
    List.forall_mem_singleton] at h
  obtain ⟨hparams, hresult, hbody⟩ := h
  have hparts := (reads_valueDefs hparams).andThen ((Reads.option hresult).andThen hbody)
  rw [MethodDef.sites, List.flatMap_append, List.flatMap_singleton]
  exact hparts.entering _

theorem reads_caseArm {a : Arm (Tree × m Unit)} (h : ∀ b ∈ a.children, Visits enter b) :
    Reads enter ((entering enter).caseArm a) (a.children.flatMap fun b => b.1.sites) () := by
  rw [Arm.children, List.forall_mem_cons, List.forall_mem_append, List.forall_mem_singleton] at h
  obtain ⟨hpat, hguard, hbody⟩ := h
  rw [Arm.children, List.flatMap_cons, List.flatMap_append, List.flatMap_singleton]
  exact hpat.andThen ((Reads.option hguard).andThen hbody)

theorem reads_trees {ts : List (Tree × m Unit)} (h : ∀ b ∈ ts, Visits enter b) :
    Reads enter (ts.forM Prod.snd) (ts.flatMap fun b => b.1.sites) () :=
  Reads.forM h

/-- **One layer of the visit.** -/
theorem reads_layer {s : Shape Tree (Tree × m Unit)} (h : ∀ b ∈ s.children, Visits enter b) :
    Reads enter ((entering enter).layer s) (s.sites Prod.fst fun b => b.1.sites) () := by
  cases s with
  | ident | typeIdent | literal | wildcard | tag => exact Reads.pure ()
  | select t | new t | bind _ t | quote t | splice t =>
    simp only [Shape.sites, Shape.children, List.flatMap_singleton]
    exact h t (List.mem_singleton_self t)
  | apply t args | typeApply t args | appliedType t args =>
    rw [Shape.children, List.forall_mem_cons] at h
    exact h.1.andThen (reads_trees h.2)
  | block stats t =>
    rw [Shape.children, List.forall_mem_append, List.forall_mem_singleton] at h
    simp only [Shape.sites, Shape.children, List.flatMap_append, List.flatMap_singleton]
    exact (reads_trees h.1).andThen h.2
  | matchOn t arms =>
    rw [Shape.children, List.forall_mem_cons] at h
    have harms := Reads.forM fun a ha => reads_caseArm fun b hb =>
      h.2 b (List.mem_flatMap.mpr ⟨a, ha, hb⟩)
    simp only [Shape.sites, Shape.children, List.flatMap_cons, List.flatMap_assoc]
    exact h.1.andThen harms
  | lambda ps t =>
    rw [Shape.children, List.forall_mem_append, List.forall_mem_singleton] at h
    exact (reads_valueDefs h.1).andThen h.2
  | valueDef d => exact reads_valueDef h
  | methodDef d => exact reads_methodDef h
  | classDef d =>
    rw [Shape.children, ClassDef.children, List.forall_mem_append] at h
    exact (reads_valueDefs h.1).andThen (reads_trees h.2)
  | objectDef d => exact reads_trees h
  | package n stats => exact reads_trees h

end Visit

/-- **The observer reads the sites of a tree**, and nothing else. -/
theorem Tree.reads_visit (enter : Site → m Unit) (t : Tree) :
    Reads enter (t.visit (.entering enter)) t.sites () := by
  induction t using Tree.induction with
  | step t _ ih =>
    have hholes : ∀ b ∈ (t.shape.map fun c => (c, c.visit (.entering enter))).children,
        Visit.Visits enter b := by
      simpa [Shape.map, Visit.Visits] using ih
    have hlayer := Visit.reads_layer hholes
    rw [Shape.sites_map] at hlayer
    rw [Tree.visit_eq, Tree.sites_eq]
    exact hlayer.entering (.tree t)

/-! ## 3. The rebuilding pass -/

namespace Rebuild

variable (enter) in
/-- The action that comes with a hole enters the sites of the tree that it comes with, and gives
that tree back. -/
def Restores (b : Tree × m Tree) : Prop := Reads enter b.2 b.1.sites b.1

theorem reads_trees {ts : List (Tree × m Tree)} (h : ∀ b ∈ ts, Restores enter b) :
    Reads enter (ts.mapM Prod.snd) (ts.flatMap fun b => b.1.sites) (ts.map Prod.fst) :=
  Reads.mapM h

theorem reads_valueDef {d : ValueDef Tree (Tree × m Tree)}
    (h : ∀ b ∈ d.children, Restores enter b) :
    Reads enter ((entering enter).valueDef d) (d.sites Prod.fst fun b => b.1.sites)
      (d.bimap id Prod.fst) := by
  rw [ValueDef.children, List.forall_mem_append] at h
  have hd : d.bimap id Prod.fst =
      { d with tpe := d.tpe.map Prod.fst, init := d.init.map Prod.fst } := by
    simp [ValueDef.bimap, Modifiers.map]
  have hparts : Reads enter (d.rebuild Prod.snd) (d.children.flatMap fun b => b.1.sites)
      (d.bimap id Prod.fst) := by
    rw [hd, ValueDef.children, List.flatMap_append]
    exact (Reads.rebuildOption h.1).bind ((Reads.rebuildOption h.2).answer _)
  exact hparts.entering _

theorem reads_valueDefs {ps : List (ValueDef Tree (Tree × m Tree))}
    (h : ∀ b ∈ ps.flatMap ValueDef.children, Restores enter b) :
    Reads enter (ps.mapM (entering enter).valueDef)
      (ps.flatMap (·.sites Prod.fst fun b => b.1.sites)) (ps.map (·.bimap id Prod.fst)) :=
  Reads.mapM fun d hd => reads_valueDef fun b hb => h b (List.mem_flatMap.mpr ⟨d, hd, hb⟩)

theorem reads_methodDef {d : MethodDef Tree (Tree × m Tree)}
    (h : ∀ b ∈ d.children, Restores enter b) :
    Reads enter ((entering enter).methodDef d) (d.sites Prod.fst fun b => b.1.sites)
      (d.bimap id Prod.fst) := by
  rw [MethodDef.children, List.forall_mem_append, List.forall_mem_append,
    List.forall_mem_singleton] at h
  obtain ⟨hparams, hresult, hbody⟩ := h
  have hd : d.bimap id Prod.fst =
      { d with
        groups := d.groups.map (·.map (·.bimap id Prod.fst))
        result := d.result.map Prod.fst
        body := d.body.1 } := by
    simp [MethodDef.bimap, Modifiers.map]
  have hgroups : Reads enter (d.groups.mapM (·.mapM (entering enter).valueDef))
      (d.params.flatMap (·.sites Prod.fst fun b => b.1.sites))
      (d.groups.map (·.map (·.bimap id Prod.fst))) := by
    rw [MethodDef.params, ← List.flatMap_id, List.flatMap_assoc] at hparams ⊢
    exact Reads.mapM fun ps hps => reads_valueDefs fun b hb =>
      hparams b (List.mem_flatMap.mpr ⟨ps, hps, hb⟩)
  have hparts : Reads enter (d.rebuild (entering enter).valueDef Prod.snd)
      (d.params.flatMap (·.sites Prod.fst fun b => b.1.sites) ++
        (d.result.toList ++ [d.body]).flatMap fun b => b.1.sites)
      (d.bimap id Prod.fst) := by
    rw [hd, List.flatMap_append, List.flatMap_singleton]
    exact hgroups.bind ((Reads.rebuildOption hresult).bind (Reads.answer hbody _))
  exact hparts.entering _

theorem reads_caseArm {a : Arm (Tree × m Tree)} (h : ∀ b ∈ a.children, Restores enter b) :
    Reads enter ((entering enter).caseArm a) (a.children.flatMap fun b => b.1.sites)
      (a.map Prod.fst) := by
  rw [Arm.children, List.forall_mem_cons, List.forall_mem_append, List.forall_mem_singleton] at h
  obtain ⟨hpat, hguard, hbody⟩ := h
  rw [Arm.children, List.flatMap_cons, List.flatMap_append, List.flatMap_singleton]
  exact Reads.bind hpat ((Reads.rebuildOption hguard).bind (Reads.answer hbody _))

/-- **One layer of the rebuilding pass.** -/
theorem reads_layer {s : Shape Tree (Tree × m Tree)} (h : ∀ b ∈ s.children, Restores enter b) :
    Reads enter ((entering enter).layer s) (s.sites Prod.fst fun b => b.1.sites)
      (s.map Prod.fst) := by
  cases s with
  | ident | typeIdent | literal | wildcard | tag => exact Reads.pure _
  | select t | new t | bind _ t | quote t | splice t =>
    simp only [Shape.sites, Shape.children, List.flatMap_singleton]
    exact Reads.answer (h t (List.mem_singleton_self t)) _
  | apply t args | typeApply t args | appliedType t args =>
    rw [Shape.children, List.forall_mem_cons] at h
    exact Reads.bind h.1 ((reads_trees h.2).answer _)
  | block stats t =>
    rw [Shape.children, List.forall_mem_append, List.forall_mem_singleton] at h
    simp only [Shape.sites, Shape.children, List.flatMap_append, List.flatMap_singleton]
    exact (reads_trees h.1).bind (Reads.answer h.2 _)
  | matchOn t arms =>
    rw [Shape.children, List.forall_mem_cons] at h
    have harms := Reads.mapM fun a ha => reads_caseArm fun b hb =>
      h.2 b (List.mem_flatMap.mpr ⟨a, ha, hb⟩)
    simp only [Shape.sites, Shape.children, List.flatMap_cons, List.flatMap_assoc]
    exact Reads.bind h.1 (harms.answer _)
  | lambda ps t =>
    rw [Shape.children, List.forall_mem_append, List.forall_mem_singleton] at h
    exact (reads_valueDefs h.1).bind (Reads.answer h.2 _)
  | valueDef d => exact (reads_valueDef h).answer _
  | methodDef d => exact (reads_methodDef h).answer _
  | classDef d =>
    rw [Shape.children, ClassDef.children, List.forall_mem_append] at h
    have hd : d.bimap id Prod.fst =
        { d with params := d.params.map (·.bimap id Prod.fst), body := d.body.map Prod.fst } := by
      simp [ClassDef.bimap, Modifiers.map]
    rw [Shape.map, Shape.bimap, hd]
    exact (reads_valueDefs h.1).bind ((reads_trees h.2).answer _)
  | objectDef d =>
    have hd : d.bimap id Prod.fst = { d with body := d.body.map Prod.fst } := by
      simp [ObjectDef.bimap, Modifiers.map]
    rw [Shape.map, Shape.bimap, hd]
    exact (reads_trees h).answer _
  | package n stats => exact (reads_trees h).answer _

end Rebuild

/-- **The rebuilding pass reads the sites of a tree**, and gives the tree back. -/
theorem Tree.reads_rebuild (enter : Site → m Unit) (t : Tree) :
    Reads enter (t.rebuild (.entering enter)) t.sites t := by
  induction t using Tree.induction with
  | step t _ ih =>
    have hholes : ∀ b ∈ (t.shape.map fun c => (c, c.rebuild (.entering enter))).children,
        Rebuild.Restores enter b := by
      simpa [Shape.map, Rebuild.Restores] using ih
    have hshape :
        (t.shape.map fun c => (c, c.rebuild (.entering enter))).map Prod.fst = t.shape := by
      rw [Shape.map, Shape.map, Shape.bimap_bimap]
      exact t.shape.bimap_id
    have hlayer := Rebuild.reads_layer hholes
    rw [Shape.sites_map, hshape] at hlayer
    rw [Tree.rebuild_eq, Tree.sites_eq]
    have hnode := (hlayer.answer fun shape => (⟨shape, t.span, t.ty⟩ : Tree)).entering (.tree t)
    rw [Tree.eta] at hnode
    exact hnode

/-- **A pass without handlers is the identity.** -/
theorem Tree.rebuild_default (t : Tree) : t.rebuild ({} : Rebuild m) = pure t := by
  have hentering : Rebuild.entering (fun _ => pure () : Site → m Unit) = {} := by
    simp [Rebuild.entering]
  have hskip : ∀ l : List Site, (l.forM fun _ => pure () : m Unit) = pure () := fun l => by
    induction l <;> simp_all
  have h := t.reads_rebuild (fun _ => pure () : Site → m Unit)
  rw [hentering, Reads, hskip] at h
  simpa using h

end

/-! ## 4. The logs -/

/-- Notes a site at the end of the log. -/
def Site.log (s : Site) : StateM (List Site) Unit := modify (· ++ [s])

/-- The log takes the sites down in order. -/
theorem Site.run_forM_log (sites : List Site) (before : List Site) :
    (sites.forM Site.log).run before = ((), before ++ sites) := by
  induction sites generalizing before with
  | nil =>
    rw [List.append_nil]
    rfl
  | cons s sites ih =>
    rw [← List.singleton_append, ← List.append_assoc, ← ih]
    rfl

/-- The log of what enters given sites grows by these sites. -/
theorem Reads.run_log {x : StateM (List Site) α} {sites : List Site} {a : α}
    (h : Reads Site.log x sites a) (before : List Site) : x.run before = (a, before ++ sites) :=
  calc x.run before
    _ = (a, ((sites.forM Site.log).run before).2) := by
      rw [h]
      rfl
    _ = (a, before ++ sites) := by rw [Site.run_forM_log]

/-- **The two traversals agree.**  A rebuilding pass without handlers gives the tree back and does
nothing else.  An observer and a pass that note every tree, value definition and method on entry and
then go on inside note the same: what stands at the addresses of the tree, each address once and in
lexicographic order.  And the pass gives the tree back. -/
theorem Tree.log_visit_eq_log_rebuild (t : Tree) :
    (∀ (σ : Type) (s : σ), (t.rebuild ({} : Rebuild (StateM σ))).run s = (t, s)) ∧
    ∃ reading, (Site.tree t).IsReading reading ∧
      ∀ before : List Site,
        (t.visit (.entering Site.log)).run before = ((), before ++ reading.map Prod.snd) ∧
        (t.rebuild (.entering Site.log)).run before = (t, before ++ reading.map Prod.snd) := by
  refine ⟨fun σ s => by rw [t.rebuild_default]; rfl, ?_⟩
  obtain ⟨reading, hreading, hsites⟩ := (Site.tree t).exists_isReading
  rw [Site.sites] at hsites
  refine ⟨reading, hreading, fun before => ⟨?_, ?_⟩⟩
  · rw [hsites]
    exact (t.reads_visit Site.log).run_log before
  · rw [hsites]
    exact (t.reads_rebuild Site.log).run_log before

end Enrich
