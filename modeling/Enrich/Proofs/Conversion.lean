import Enrich.Extension.Target
import Enrich.Proofs.Unsplicing
import Enrich.Tree.Printer
import Mathlib.Data.List.Forall2
/-!
# What is converted to a type, and what the conversion keeps

An annotation argument is converted to a type node by node.  Four kinds of nodes have a form as a
type; a tree with any other node in it is refused, and the first such node in reading order is
named.

So there are two inductions.  One goes along the search for a node without a form
(`Tree.asType?_eq_error_iff`).  The other one goes along a conversion that succeeds
(`Tree.asType?_induction`), and everything that is kept follows from it: where the nodes stand, the
names on them, how many there are below each, and the text.

* `Tree.asType?_eq_error_iff`: the first node without a form is named.
* `Tree.identifiers_eq_filterMap`: the names in a target are those on the nodes.
* `asTarget?_converts`: the main statement.
-/

namespace Enrich

/-! ## 1. Lists -/

section

variable {α β ε : Type} {f : α → Except ε β}

theorem mapM_eq_ok_iff {l : List α} {l' : List β} :
    l.mapM f = .ok l' ↔ List.Forall₂ (fun a b => f a = .ok b) l l' := by
  induction l generalizing l' with
  | nil => cases l' <;> simp [pure, Except.pure]
  | cons a l ih =>
    rw [List.mapM_cons]
    cases ha : f a with
    | error e => cases l' <;> simp [bind, Except.bind, ha]
    | ok b =>
      cases hl : l.mapM f with
      | error e => cases l' <;> simp [bind, Except.bind, ← ih, hl, ha]
      | ok bs => cases l' <;> simp [bind, Except.bind, pure, Except.pure, ← ih, hl, ha]

/-- A list fails with the first of its elements that does. -/
theorem mapM_eq_error_iff {l : List α} {e : ε} :
    l.mapM f = .error e ↔ ∃ before a after, l = before ++ a :: after ∧
      (∀ b ∈ before, ∃ c, f b = .ok c) ∧ f a = .error e := by
  induction l with
  | nil => simp [pure, Except.pure]
  | cons a l ih =>
    rw [List.mapM_cons]
    constructor
    · intro h
      cases ha : f a with
      | error e' =>
        simp only [ha, bind, Except.bind, Except.error.injEq] at h
        exact ⟨[], a, l, rfl, by simp, h ▸ ha⟩
      | ok b =>
        cases hl : l.mapM f with
        | ok bs => simp [ha, hl, bind, Except.bind, pure, Except.pure] at h
        | error e' =>
          simp only [ha, hl, bind, Except.bind, Except.error.injEq] at h
          obtain ⟨before, c, after, rfl, hbefore, hc⟩ := ih.mp (h ▸ hl)
          exact ⟨a :: before, c, after, rfl, by simpa [ha] using hbefore, hc⟩
    · rintro ⟨before, c, after, hsplit, hbefore, hc⟩
      cases before with
      | nil =>
        obtain ⟨rfl, rfl⟩ := List.cons.inj hsplit
        simp [hc, bind, Except.bind]
      | cons b before =>
        obtain ⟨rfl, rfl⟩ := List.cons.inj hsplit
        obtain ⟨d, hd⟩ := hbefore a List.mem_cons_self
        have hl : (before ++ c :: after).mapM f = .error e :=
          ih.mpr ⟨before, c, after, rfl, fun b hb => hbefore b (List.mem_cons_of_mem _ hb), hc⟩
        change (f a >>= fun b => (before ++ c :: after).mapM f >>= fun bs => pure (b :: bs)) = _
        rw [hd, hl]
        rfl

end

/-- Lists that correspond element by element are mapped to the same list if the elements are. -/
theorem map_eq_map_of_forall₂ {α β γ : Type} {f : α → γ} {g : β → γ} {l : List α} {l' : List β}
    (h : List.Forall₂ (fun a b => f a = g b) l l') : l.map f = l'.map g := by
  rwa [← List.forall₂_eq_eq_eq, List.forall₂_map_left_iff, List.forall₂_map_right_iff]

theorem forall_mem_of_forall₂ {α β : Type} {p : β → Prop} {l : List α} {l' : List β}
    (h : List.Forall₂ (fun _ b => p b) l l') : ∀ b ∈ l', p b := by
  induction h with
  | nil => simp
  | cons hb _ ih => simpa using ⟨hb, ih⟩

/-! ## 2. Nodes that have a form as a type -/

namespace Tree

/-- Has the node a form as a type? -/
def isTypeNode (t : Tree) : Bool :=
  [Kind.ident, Kind.typeIdent, Kind.typeApply, Kind.appliedType].contains t.kind

/-- The name that is referred to, as a value or as a type. -/
def identifier? (t : Tree) : Option Name :=
  match t.shape with
  | .ident n | .typeIdent n => some n
  | _ => none

/-- The head and the arguments where type arguments are given, to a value or to a type. -/
def typeArguments? (t : Tree) : Option (Tree × List Tree) :=
  match t.shape with
  | .typeApply fn args | .appliedType fn args => some (fn, args)
  | _ => none

/-- **The two sorts of nodes that have a form as a type**, and the others. -/
theorem typeNode_cases (t : Tree) :
    (∃ n, t.identifier? = some n) ∨ (∃ fn args, t.typeArguments? = some (fn, args)) ∨
      t.isTypeNode = false := by
  unfold identifier? typeArguments? isTypeNode kind
  cases t.shape <;> simp [Shape.kind]

section

variable {t : Tree} {n : Name} {fn : Tree} {args : List Tree}

theorem isTypeNode_of_identifier (h : t.identifier? = some n) : t.isTypeNode = true := by
  unfold identifier? at h
  split at h <;> simp_all [isTypeNode, kind, Shape.kind]

theorem isTypeNode_of_typeArguments (h : t.typeArguments? = some (fn, args)) :
    t.isTypeNode = true := by
  unfold typeArguments? at h
  split at h <;> simp_all [isTypeNode, kind, Shape.kind]

theorem children_of_identifier (h : t.identifier? = some n) : t.shape.children = [] := by
  unfold identifier? at h
  split at h <;> simp_all [Shape.children]

theorem children_of_typeArguments (h : t.typeArguments? = some (fn, args)) :
    t.shape.children = fn :: args := by
  unfold typeArguments? at h
  split at h <;> simp_all [Shape.children]

theorem asType?_of_identifier (h : t.identifier? = some n) :
    t.asType? = .ok (typeIdent n t.span) := by
  rw [asType?_eq]
  unfold identifier? at h
  split at h <;> simp_all

theorem asType?_of_typeArguments (h : t.typeArguments? = some (fn, args)) :
    t.asType? = do
      let fn ← fn.asType?
      let args ← args.mapM asType?
      return appliedType fn args t.span := by
  rw [asType?_eq]
  unfold typeArguments? at h
  split at h <;> simp_all

theorem asType?_of_not_isTypeNode (h : t.isTypeNode = false) : t.asType? = .error ⟨t⟩ := by
  rw [asType?_eq]
  unfold isTypeNode kind at h
  split <;> simp_all [Shape.kind]

/-! ## 3. The first node without a form -/

/-- What stops the conversion of an application stops that of its head or of an argument. -/
theorem asType?_eq_error_of_typeArguments (h : t.typeArguments? = some (fn, args))
    {bad : NotAType} :
    t.asType? = .error bad ↔ (fn :: args).mapM asType? = .error bad := by
  rw [asType?_of_typeArguments h, List.mapM_cons]
  cases fn.asType? with
  | error e => simp [Bind.bind, Except.bind]
  | ok fn' => cases args.mapM asType? <;> simp [Bind.bind, Except.bind, Pure.pure, Except.pure]

end

/-- **The first node without a form as a type is named**, in reading order. -/
theorem asType?_eq_error_iff (t : Tree) (bad : NotAType) :
    t.asType? = .error bad ↔
      (t.nodes .code).find? (fun u => !u.isTypeNode) = some bad.tree := by
  induction t using induction generalizing bad with
  | step t _ ih =>
    rw [nodes_eq, List.find?_cons]
    change _ ↔ (match !t.isTypeNode with
      | true => some t
      | false => (t.shape.children.flatMap (nodes .code)).find? fun u => !u.isTypeNode) = _
    rcases t.typeNode_cases with ⟨n, hn⟩ | ⟨fn, args, ha⟩ | hother
    · rw [asType?_of_identifier hn, isTypeNode_of_identifier hn, children_of_identifier hn]
      simp
    · rw [children_of_typeArguments ha] at ih ⊢
      rw [isTypeNode_of_typeArguments ha, asType?_eq_error_of_typeArguments ha,
        mapM_eq_error_iff]
      simp only [Bool.not_true, List.find?_flatMap, List.findSome?_eq_some_iff]
      -- what converts has no such node, and the first argument that does not has the first one
      have hok : ∀ c ∈ fn :: args, (∃ u, c.asType? = .ok u) ↔
          (c.nodes .code).find? (fun u => !u.isTypeNode) = none := by
        intro c hc
        cases hcase : c.asType? with
        | error e => simp [(ih c hc e).mp hcase]
        | ok u =>
          refine iff_of_true ⟨u, rfl⟩ (Option.eq_none_iff_forall_ne_some.mpr fun b hb => ?_)
          have := (ih c hc ⟨b⟩).mpr hb
          simp [hcase] at this
      constructor
      · rintro ⟨before, c, after, hsplit, hbefore, hc⟩
        have hmem : ∀ b ∈ before, b ∈ fn :: args := fun b hb => hsplit ▸ by simp [hb]
        exact ⟨before, c, after, hsplit, (ih c (hsplit ▸ by simp) bad).mp hc,
          fun b hb => (hok b (hmem b hb)).mp (hbefore b hb)⟩
      · rintro ⟨before, c, after, hsplit, hc, hbefore⟩
        have hmem : ∀ b ∈ before, b ∈ fn :: args := fun b hb => hsplit ▸ by simp [hb]
        exact ⟨before, c, after, hsplit,
          fun b hb => (hok b (hmem b hb)).mpr (hbefore b hb),
          (ih c (hsplit ▸ by simp) bad).mpr hc⟩
    · rw [asType?_of_not_isTypeNode hother, hother]
      cases bad
      simp

/-- A tree converts exactly if all its nodes have a form as a type. -/
theorem exists_asType?_eq_ok_iff (t : Tree) :
    (∃ u, t.asType? = .ok u) ↔ ∀ u ∈ t.nodes .code, u.isTypeNode = true := by
  have hfind : (t.nodes .code).find? (fun u => !u.isTypeNode) = none ↔
      ∀ u ∈ t.nodes .code, u.isTypeNode = true := by simp [List.find?_eq_none]
  rw [← hfind]
  cases ht : t.asType? with
  | error bad => simp [(t.asType?_eq_error_iff bad).mp ht]
  | ok u =>
    refine iff_of_true ⟨u, rfl⟩ (Option.eq_none_iff_forall_ne_some.mpr fun bad hbad => ?_)
    have := (t.asType?_eq_error_iff ⟨bad⟩).mpr hbad
    simp [ht] at this

/-! ## 4. What a conversion keeps -/

/-- **Induction along a conversion.**  What holds of a reference and the reference to a type, and
passes from the head and the arguments to the application, holds of a tree and its type. -/
theorem asType?_induction {P : Tree → Tree → Prop}
    (reference : ∀ {t n}, t.identifier? = some n → P t (typeIdent n t.span))
    (application : ∀ {t fn args fn' args'}, t.typeArguments? = some (fn, args) →
      List.Forall₂ (fun a b => a.asType? = .ok b) (fn :: args) (fn' :: args') →
      List.Forall₂ P (fn :: args) (fn' :: args') → P t (appliedType fn' args' t.span))
    {t u : Tree} (h : t.asType? = .ok u) : P t u := by
  induction t using induction generalizing u with
  | step t _ ih =>
    rcases t.typeNode_cases with ⟨n, hn⟩ | ⟨fn, args, ha⟩ | hother
    · rw [asType?_of_identifier hn, Except.ok.injEq] at h
      exact h ▸ reference hn
    · rw [children_of_typeArguments ha] at ih
      rw [asType?_of_typeArguments ha] at h
      cases hfn : fn.asType? with
      | error e => simp [hfn, Bind.bind, Except.bind] at h
      | ok fn' =>
        cases hargs : args.mapM asType? with
        | error e => simp [hfn, hargs, Bind.bind, Except.bind] at h
        | ok args' =>
          simp only [hfn, hargs, Bind.bind, Except.bind, Pure.pure, Except.pure,
            Except.ok.injEq] at h
          have hall : List.Forall₂ (fun a b => a.asType? = .ok b) (fn :: args) (fn' :: args') :=
            .cons hfn (mapM_eq_ok_iff.mp hargs)
          have hP := (List.forall₂_and_left _ _).mpr ⟨fun c hc u => ih c hc (u := u), hall⟩
          rw [← h]
          exact application ha hall (hP.imp fun _ _ hc => hc.1 _ hc.2)
    · rw [asType?_of_not_isTypeNode hother] at h
      contradiction

/-- What the conversion of a node keeps: where it stands, the names on it, and how many nodes are
right below it.  In reading order, the last of these tells how the nodes are put together. -/
def frame (t : Tree) : Span × List Name × Nat := (t.span, t.shape.names, t.shape.children.length)

/-- The names in the code of a tree that are referred to, node by node. -/
theorem identifiers_eq_filterMap (t : Tree) :
    t.identifiers = (t.nodes .code).filterMap identifier? := by
  induction t using induction with
  | step t _ ih =>
    have hbelow : t.shape.children.flatMap identifiers =
        (t.shape.children.flatMap (nodes .code)).filterMap identifier? := by
      rw [List.filterMap_flatMap, List.flatMap_def, List.flatMap_def, List.map_congr_left ih]
    rw [nodes_code_eq, List.filterMap_cons, identifiers_eq]
    cases hn : t.identifier? with
    | some n =>
      rw [children_of_identifier hn]
      unfold identifier? at hn
      split at hn <;> simp_all
    | none =>
      rw [← hbelow]
      unfold identifier? at hn
      split at hn <;> simp_all

section

variable {t u : Tree}

/-- **Every node is kept where it is**, with the names on it. -/
theorem map_frame_nodes_of_asType? (h : t.asType? = .ok u) :
    (t.nodes .code).map frame = (u.nodes .code).map frame := by
  refine asType?_induction (P := fun t u => (t.nodes .code).map frame = (u.nodes .code).map frame)
    (fun {t n} hn => ?_) (fun {t fn args fn' args'} ha hall hframes => ?_) h
  · rw [nodes_code_eq, nodes_code_eq (typeIdent n t.span), children_of_identifier hn]
    unfold identifier? at hn
    split at hn <;> simp_all [frame, typeIdent, ofShape, Shape.names, Shape.children]
  · have hlength := hall.length_eq
    have hroot : t.frame = (appliedType fn' args' t.span).frame := by
      unfold typeArguments? at ha
      split at ha <;> simp_all [frame, appliedType, ofShape, Shape.names, Shape.children]
    rw [nodes_code_eq, nodes_code_eq (appliedType fn' args' t.span), List.map_cons, List.map_cons,
      hroot, children_of_typeArguments ha, List.map_flatMap, List.map_flatMap, List.flatMap_def,
      List.flatMap_def, map_eq_map_of_forall₂ hframes]
    rfl

/-- A type is made of references to types and of applied types, and none has an attached type. -/
theorem isType_of_asType? (h : t.asType? = .ok u) :
    ∀ w ∈ u.nodes .code, (w.kind = .typeIdent ∨ w.kind = .appliedType) ∧ w.ty = none := by
  refine asType?_induction (P := fun _ u => ∀ w ∈ u.nodes .code,
    (w.kind = .typeIdent ∨ w.kind = .appliedType) ∧ w.ty = none) (fun _ w hw => ?_)
    (fun _ _ hbelow w hw => ?_) h
  · rw [nodes_code_eq] at hw
    rw [List.mem_singleton.mp hw]
    exact ⟨.inl rfl, rfl⟩
  · rcases mem_nodes_code_iff.mp hw with rfl | ⟨c, hc, hw⟩
    · exact ⟨.inr rfl, rfl⟩
    · exact forall_mem_of_forall₂ hbelow c hc w hw

/-- The same names are referred to. -/
theorem identifiers_of_asType? (h : t.asType? = .ok u) : t.identifiers = u.identifiers := by
  refine asType?_induction (P := fun t u => t.identifiers = u.identifiers) (fun {t n} hn => ?_)
    (fun {t fn args fn' args'} ha _ hnames => ?_) h
  · rw [identifiers_eq, identifiers_eq (typeIdent n t.span)]
    unfold identifier? at hn
    split at hn <;> simp_all [typeIdent, ofShape]
  · have hbelow : t.identifiers = (fn :: args).flatMap identifiers := by
      rw [identifiers_eq]
      unfold typeArguments? at ha
      split at ha <;> simp_all [Shape.children]
    rw [hbelow, identifiers_eq (appliedType fn' args' t.span), List.flatMap_def,
      map_eq_map_of_forall₂ hnames]
    rfl

/-- A tree and its type are written alike. -/
theorem pieces_of_asType? (h : t.asType? = .ok u) : t.pieces = u.pieces := by
  refine asType?_induction (P := fun t u => t.pieces = u.pieces) (fun {t n} hn => ?_)
    (fun {t fn args fn' args'} ha _ hpieces => ?_) h
  · rw [pieces_eq, pieces_eq (typeIdent n t.span)]
    unfold identifier? at hn
    split at hn <;> simp_all [typeIdent, ofShape, Shape.bimap, Layout.layer]
  · have hlayer : t.pieces = fn.pieces ++ Layout.square (args.map pieces) := by
      rw [pieces_eq]
      unfold typeArguments? at ha
      split at ha <;> simp_all [Shape.bimap, Layout.layer, Function.comp_def]
    obtain ⟨hfn, hargs⟩ := List.forall₂_cons.mp hpieces
    rw [hlayer, pieces_eq (appliedType fn' args' t.span), hfn, map_eq_map_of_forall₂ hargs]
    simp [appliedType, ofShape, Shape.bimap, Layout.layer, Function.comp_def]

/-- What was converted converts to itself. -/
theorem asType?_asType? (h : t.asType? = .ok u) : u.asType? = .ok u := by
  refine asType?_induction (P := fun _ u => u.asType? = .ok u) (fun _ => rfl)
    (fun {t fn args fn' args'} _ _ hagain => ?_) h
  have hall := forall_mem_of_forall₂ hagain
  have hargs : args'.mapM asType? = .ok args' :=
    mapM_eq_ok_iff.mpr (List.forall₂_same.mpr fun a ha => hall a (List.mem_cons_of_mem _ ha))
  have happlied : (appliedType fn' args' t.span).typeArguments? = some (fn', args') := rfl
  rw [asType?_of_typeArguments happlied, hall fn' List.mem_cons_self, hargs]
  rfl

end

end Tree

/-! ## 5. The main statement -/

/-- What a conversion keeps. -/
structure Converts (t : Tree) (target : Target) : Prop where
  /-- The same nodes, as they are put together: at the same places and with the same names. -/
  frames : (target.tpe.nodes .code).map Tree.frame = (t.nodes .code).map Tree.frame
  isType : ∀ u ∈ target.tpe.nodes .code,
    (u.kind = .typeIdent ∨ u.kind = .appliedType) ∧ u.ty = none
  /-- The names are those that the argument refers to. -/
  names : ∀ n, n ∈ target.names ↔
    ∃ u ∈ t.nodes .code, u.shape = .ident n ∨ u.shape = .typeIdent n
  /-- Both are written alike. -/
  print : ∀ i, target.tpe.print i = t.print i
  again : target.tpe.asTarget? = .ok target

theorem Tree.identifier?_eq_some_iff {t : Tree} {n : Name} :
    t.identifier? = some n ↔ t.shape = .ident n ∨ t.shape = .typeIdent n := by
  unfold identifier?
  cases t.shape <;> simp

theorem Tree.asTarget?_eq (t : Tree) :
    t.asTarget? = (fun u => ⟨u, u.identifiers⟩) <$> t.asType? := by
  rw [asTarget?, map_eq_pure_bind]

theorem Tree.converts_of_asTarget? {t : Tree} {target : Target} (h : t.asTarget? = .ok target) :
    Converts t target := by
  rw [asTarget?_eq] at h
  cases hu : t.asType? with
  | error bad => simp [hu, Functor.map, Except.map] at h
  | ok u =>
    simp only [hu, Functor.map, Except.map, Except.ok.injEq] at h
    subst h
    refine ⟨(map_frame_nodes_of_asType? hu).symm, isType_of_asType? hu, fun n => ?_, fun i => ?_,
      ?_⟩
    · rw [← identifiers_of_asType? hu, identifiers_eq_filterMap, List.mem_filterMap]
      simp only [identifier?_eq_some_iff]
    · rw [print, print, pieces_of_asType? hu]
    · rw [asTarget?_eq, asType?_asType? hu]
      rfl

/-- **What is converted to a type, and what the conversion keeps.**  An argument converts exactly if
all its nodes are references and applications of types, written as values or as types.  Then the
type has the same nodes at the same places with the same names, as nodes of types without attached
types; its names are those that the argument refers to; it is written like the argument, and it
converts to itself.  Otherwise the first node of another kind is named, and its place. -/
theorem asTarget?_converts (t : Tree) :
    ((∃ target, t.asTarget? = .ok target) ↔
      ∀ u ∈ t.nodes .code, u.kind ∈ [.ident, .typeIdent, .typeApply, .appliedType]) ∧
    (∀ target, t.asTarget? = .ok target → Converts t target) ∧
    ∀ bad, t.asTarget? = .error bad ↔ ∃ before first after,
      t.nodes .code = before ++ first :: after ∧
      (∀ u ∈ before, u.kind ∈ [.ident, .typeIdent, .typeApply, .appliedType]) ∧
      first.kind ∉ [.ident, .typeIdent, .typeApply, .appliedType] ∧
      bad.tree = first ∧ bad.span = first.span := by
  have hnode : ∀ u : Tree, u.isTypeNode = true ↔
      u.kind ∈ [.ident, .typeIdent, .typeApply, .appliedType] := fun u => by
    rw [Tree.isTypeNode, List.contains_iff_mem]
  refine ⟨?_, fun _ => Tree.converts_of_asTarget?, fun bad => ?_⟩
  · simp only [← hnode]
    rw [← t.exists_asType?_eq_ok_iff, t.asTarget?_eq]
    cases t.asType? <;> simp [Functor.map, Except.map]
  · simp only [← hnode]
    have herror : t.asTarget? = .error bad ↔ t.asType? = .error bad := by
      rw [t.asTarget?_eq]
      cases t.asType? <;> simp [Functor.map, Except.map]
    rw [herror, t.asType?_eq_error_iff, List.find?_eq_some_iff_append]
    simp only [Bool.not_eq_true', Bool.not_eq_false', Bool.not_eq_true]
    constructor
    · rintro ⟨hfirst, before, after, hsplit, hbefore⟩
      exact ⟨before, bad.tree, after, hsplit, hbefore, hfirst, rfl, rfl⟩
    · rintro ⟨before, _, after, hsplit, hbefore, hfirst, rfl, -⟩
      exact ⟨hfirst, before, after, hsplit, hbefore⟩

end Enrich
