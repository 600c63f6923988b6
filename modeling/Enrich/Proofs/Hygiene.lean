import Enrich.Proofs.Placement
import Enrich.Proofs.Scopes
import Mathlib.Data.List.Nodup
/-!
# What the identifiers of an emitted value refer to

An emitted value is made of parts: the trees of the plain values and the expressions of all levels,
each with its tags replaced by references (`Reified.parts`).  Every part keeps the places of its
identifiers and their scopes, and around it is the scope of the bindings that were hoisted into the
outermost block.

So a declaration inside a part is always meant first, and then a hoisted binding, whatever the
identifier comes from.  The names of the bindings tell positions and are not made up to be new.
That is as it should be for names that no part uses.  A part that does use them may have a free
identifier caught by a hoisted binding, or a reference to a capture by a declaration of its own
(`not_isHygienic_captureName`); what happens then is the same rule.

* `Part.IsBound`: what the identifiers of a part refer to.
* `emit_resolves`: the main statement.
-/

namespace Enrich

variable {V : Type}

/-! ## 1. Looking names up -/

namespace NameScope

theorem lookup_under (route : List Nat) (n : Name) (scope : NameScope) :
    (scope.under route).lookup n = (scope.lookup n).map (.under route) := by
  induction scope with
  | nil => rfl
  | cons p scope ih =>
    have hcons : under route (p :: scope) = (p.1, p.2.under route) :: under route scope := rfl
    rw [hcons, List.lookup_cons, List.lookup_cons, ih]
    split <;> rfl

theorem under_under (route route' : List Nat) (scope : NameScope) :
    (scope.under route').under route = scope.under (route ++ route') := by
  simp [under, Declaration.under, Function.comp_def]

theorem under_nil (scope : NameScope) : scope.under [] = scope := by
  simp [under, Declaration.under]

/-- Of distinct names each is looked up as itself. -/
theorem lookup_of_nodup {n : Name} {d : Declaration} {scope : NameScope}
    (hnodup : (scope.map Prod.fst).Nodup) (h : (n, d) ∈ scope) : scope.lookup n = some d := by
  induction scope with
  | nil => exact absurd h List.not_mem_nil
  | cons p scope ih =>
    rw [List.map_cons, List.nodup_cons] at hnodup
    rw [List.lookup_cons]
    rcases List.mem_cons.mp h with rfl | h
    · simp
    · have hne : n ≠ p.1 := fun heq => hnodup.1 (heq ▸ List.mem_map_of_mem h)
      rw [beq_false_of_ne hne]
      exact ih hnodup.2 h

end NameScope

/-- The hoisted binding of a name, if it is one of the first `visible` ones. -/
def hoisted? (names : List Name) (visible : Nat) (n : Name) : Option Declaration :=
  ((names.take visible).idxOf? n).map fun k => { path := [], index := k }

/-- What the hoisted bindings add to a scope. -/
theorem lookup_hoisted {names : List Name} (hnodup : names.Nodup) (visible : Nat) (n : Name) :
    (NameScope.ofNames (names.take visible).zipIdx).lookup n = hoisted? names visible n := by
  have hkeys : ((NameScope.ofNames (names.take visible).zipIdx).map Prod.fst).Nodup := by
    have hfst : (NameScope.ofNames (names.take visible).zipIdx).map Prod.fst =
        (names.take visible).reverse := by
      simp [NameScope.ofNames, Function.comp_def]
    rw [hfst, List.nodup_reverse]
    exact hnodup.sublist (List.take_sublist _ _)
  unfold hoisted?
  cases hidx : (names.take visible).idxOf? n with
  | none =>
    rw [List.idxOf?_eq_none_iff] at hidx
    rw [Option.map_none, List.lookup_eq_none_iff]
    intro p hp
    obtain ⟨q, hq, rfl⟩ := List.mem_map.mp hp
    have hq' := List.fst_mem_of_mem_zipIdx (List.mem_reverse.mp hq)
    exact bne_iff_ne.mpr fun heq => hidx (heq ▸ hq')
  | some k =>
    obtain ⟨hlt, hget, -⟩ := List.idxOf?_eq_some_iff.mp hidx
    refine NameScope.lookup_of_nodup hkeys ?_
    refine List.mem_map.mpr ⟨(n, k), List.mem_reverse.mpr ?_, rfl⟩
    rw [List.mem_zipIdx_iff_getElem?, List.getElem?_eq_some_iff]
    exact ⟨hlt, hget⟩

theorem hoisted?_of_getElem? {names : List Name} {visible k : Nat} {n : Name}
    (hnodup : names.Nodup) (hk : k < visible) (h : names[k]? = some n) :
    hoisted? names visible n = some { path := [], index := k } := by
  obtain ⟨hlt, rfl⟩ := List.getElem?_eq_some_iff.mp h
  have hidx : (names.take visible).idxOf? names[k] = some k := by
    refine List.idxOf?_eq_some_iff.mpr ⟨by rw [List.length_take]; omega, by simp, ?_⟩
    intro j hj heq
    rw [List.getElem_take] at heq
    have := (List.Nodup.getElem_inj_iff hnodup).mp heq
    omega
  rw [hoisted?, hidx, Option.map_some]

/-! ## 2. The emitted block -/

/-- How many of `count` hoisted bindings are visible in the right-hand side at `position`. -/
def Visibility.countAt (rule : Visibility) (count position : Nat) : Nat :=
  match rule with
  | .later => position
  | .everywhere => count

namespace Flattened

variable {f : Flattened} {names : List Name} {rule : Visibility}

/-- The statements of the emitted block. -/
def stats (f : Flattened) (names : List Name) : List Tree :=
  f.captures.zipWith (binding names) names

theorem length_stats (hlength : names.length = f.captures.length) :
    (f.stats names).length = f.captures.length := by
  rw [stats, List.length_zipWith, hlength, Nat.min_self]

/-- The statement at a position is the binding of the capture there. -/
theorem getElem?_stats {k : Nat} {c : FlatCapture} {n : Name} (hc : f.captures[k]? = some c)
    (hn : names[k]? = some n) : (f.stats names)[k]? = some (binding names c n) := by
  rw [stats, List.getElem?_zipWith, hc, hn]

theorem children_emitWith (f : Flattened) (names : List Name) :
    (f.emitWith names).shape.children = f.stats names ++ [f.expr.bindTags names] := rfl

theorem declared_stats (hlength : names.length = f.captures.length) (k : Nat) :
    ((f.stats names).take k).flatMap Tree.declared = names.take k := by
  have hall : ∀ (cs : List FlatCapture) (rest : List Name) k, rest.length = cs.length →
      ((cs.zipWith (binding names) rest).take k).flatMap Tree.declared = rest.take k := by
    intro cs
    induction cs with
    | nil =>
      intro rest k h
      rw [List.eq_nil_of_length_eq_zero h]
      simp
    | cons c cs ih =>
      intro rest k h
      match rest, k, h with
      | n :: rest, 0, _ => rfl
      | n :: rest, k + 1, h =>
        have hn : (binding names c n).declared = [n] := rfl
        rw [List.zipWith_cons_cons, List.take_succ_cons, List.flatMap_cons, hn,
          ih rest k (Nat.succ.inj h)]
        rfl
  exact hall f.captures names k hlength

/-- What the statement at a position sees of the bindings. -/
theorem seenAt_stats (rule : Visibility) (hlength : names.length = f.captures.length) (k : Nat) :
    rule.seenAt Tree.declared (f.stats names) k =
      names.take (rule.countAt f.captures.length k) := by
  cases rule with
  | later => exact declared_stats hlength k
  | everywhere =>
    have hall := declared_stats hlength f.captures.length
    rwa [List.take_of_length_le (Nat.le_of_eq (length_stats hlength))] at hall

theorem visible_emitWith (f : Flattened) (names : List Name) (rule : Visibility) :
    (f.emitWith names).visible rule =
      (f.stats names).zipIdx.map
          (fun c => ((rule.seenAt Tree.declared (f.stats names) c.2).zipIdx, c.1)) ++
        [(((f.stats names).flatMap Tree.declared).zipIdx, f.expr.bindTags names)] := rfl

/-- What stands at a position of the emitted block, and what is visible there. -/
theorem getElem?_visible_emitWith (rule : Visibility) (hlength : names.length = f.captures.length)
    {j : Nat} {c : FlatCapture} {n : Name} (hc : f.captures[j]? = some c)
    (hn : names[j]? = some n) :
    ((f.emitWith names).visible rule)[j]? =
      some ((names.take (rule.countAt f.captures.length j)).zipIdx, binding names c n) := by
  have hstat := getElem?_stats hc hn
  have hlt : j < (f.stats names).length := (List.getElem?_eq_some_iff.mp hstat).1
  rw [visible_emitWith, List.getElem?_append_left (by simpa using hlt), List.getElem?_map,
    List.getElem?_zipIdx, hstat]
  simp only [Option.map_some, Nat.zero_add, seenAt_stats rule hlength]

/-- What stands after the bindings sees them all. -/
theorem getElem?_visible_emitWith_result (rule : Visibility)
    (hlength : names.length = f.captures.length) :
    ((f.emitWith names).visible rule)[f.captures.length]? =
      some ((names.take f.captures.length).zipIdx, f.expr.bindTags names) := by
  have hstats := length_stats hlength
  have hall := declared_stats hlength f.captures.length
  rw [List.take_of_length_le (Nat.le_of_eq hstats)] at hall
  rw [visible_emitWith, List.getElem?_append_right (by simp [hstats])]
  simp [hstats, hall]

end Flattened

/-! ## 3. Parts -/

/-- A tree that flattening has placed, and where it stands in the emitted tree. -/
structure Part (V : Type) where
  source : Tree
  /-- The captures that its tags stand for. -/
  captures : List (Capture V)
  /-- The positions of these captures. -/
  positions : List Nat
  route : List Nat
  /-- How many of the hoisted bindings are visible there. -/
  visible : Nat

/-- The tree that stands in the emitted tree for the part. -/
def Part.tree (names : List Name) (p : Part V) : Tree :=
  (p.source.retag p.positions).bindTags names

/-- The capture at `position` of `count`, as the right-hand side of its binding. -/
def Placed.part (rule : Visibility) (count position : Nat) (p : Placed V) : Part V where
  source := p.source
  captures := p.captures
  positions := p.positions
  route := [position, 1]
  visible := rule.countAt count position

/-- The expression, after the bindings, or alone if there are none. -/
def Reified.resultPart (r : Reified V) : Part V where
  source := r.expr
  captures := r.captures
  positions := r.positions 0
  route := if r.size = 0 then [] else [r.size]
  visible := r.size

/-- The parts of the emitted tree. -/
def Reified.parts (rule : Visibility) (lift : Lift V) (r : Reified V) : List (Part V) :=
  (r.placed lift 0).zipIdx.map (fun p => p.1.part rule r.size p.2) ++ [r.resultPart]

/-- `emitted` has the part at its route, under the bindings that are visible there. -/
def Part.StandsIn (rule : Visibility) (names : List Name) (emitted : Tree) (p : Part V) : Prop :=
  ∀ path scope u, (p.tree names).at? rule path = some (scope, u) →
    emitted.at? rule (p.route ++ path) =
      some (scope.under p.route ++ .ofNames (names.take p.visible).zipIdx, u)

section

variable {rule : Visibility} {lift : Lift V} {r : Reified V} {flat : Flattened} {names : List Name}
  {part : Part V}

/-- A part is the right-hand side of a binding, or the expression. -/
theorem mem_parts_iff :
    part ∈ r.parts rule lift ↔
      (∃ j, ∃ p : Placed V, (r.placed lift 0)[j]? = some p ∧ part = p.part rule r.size j) ∨
        part = r.resultPart := by
  rw [Reified.parts, List.mem_append, List.mem_singleton, List.mem_map]
  refine or_congr_left ⟨?_, ?_⟩
  · rintro ⟨⟨p, j⟩, hmem, rfl⟩
    exact ⟨j, p, List.mem_zipIdx_iff_getElem?.mp hmem, rfl⟩
  · rintro ⟨j, p, hp, rfl⟩
    exact ⟨(p, j), List.mem_zipIdx_iff_getElem?.mpr hp, rfl⟩

/-- Every expression and every tree of a plain value is a part. -/
theorem exists_part (rule : Visibility) :
    ∀ t ∈ r.exprs ++ r.lifted lift, ∃ part ∈ r.parts rule lift, part.source = t := by
  intro t ht
  rcases r.exists_placed 0 t ht with rfl | ⟨p, hp, rfl⟩
  · exact ⟨_, mem_parts_iff.mpr (.inr rfl), rfl⟩
  · obtain ⟨j, hj⟩ := List.mem_iff_getElem?.mp hp
    exact ⟨_, mem_parts_iff.mpr (.inl ⟨j, p, hj, rfl⟩), rfl⟩

/-- A right-hand side stands in its binding. -/
theorem standsIn_binding (hplaced : r.IsPlaced lift 0 flat)
    (hlength : names.length = flat.captures.length) {j : Nat} {p : Placed V}
    (hp : (r.placed lift 0)[j]? = some p) :
    (p.part rule r.size j).StandsIn rule names (flat.emitWith names) := by
  intro path scope u h
  have hc : flat.captures[j]? = some p.flat := by
    rw [hplaced.captures.flat_eq, List.getElem?_map, hp, Option.map_some]
  have hj : j < names.length := hlength ▸ (List.getElem?_eq_some_iff.mp hc).1
  have hn : names[j]? = some names[j] := List.getElem?_eq_getElem hj
  have hinit : (Flattened.binding names p.flat names[j]).at? rule (1 :: path) =
      some (scope.under [1] ++ .ofNames [], u) :=
    Tree.at?_cons_eq_some_iff.mpr ⟨[], _, scope, rfl, h, rfl⟩
  refine Tree.at?_cons_eq_some_iff.mpr
    ⟨_, _, _, Flattened.getElem?_visible_emitWith rule hlength hc hn, hinit, ?_⟩
  have hempty : NameScope.ofNames [] = [] := rfl
  rw [hempty, List.append_nil, NameScope.under_under, hplaced.captures.length]
  rfl

/-- The expression stands after the bindings. -/
theorem standsIn_result (hplaced : r.IsPlaced lift 0 flat)
    (hlength : names.length = flat.captures.length) (hsize : r.size ≠ 0) :
    r.resultPart.StandsIn rule names (flat.emitWith names) := by
  intro path scope u h
  have hroute : r.resultPart.route = [r.size] := if_neg hsize
  rw [hroute]
  have hresult := Flattened.getElem?_visible_emitWith_result rule hlength
  rw [hplaced.captures.length, hplaced.expr] at hresult
  exact Tree.at?_cons_eq_some_iff.mpr ⟨_, _, scope, hresult, h, rfl⟩

/-- Without captures the expression stands for itself. -/
theorem standsIn_of_nil (hplaced : r.IsPlaced lift 0 flat) (hsize : r.size = 0) :
    r.resultPart.StandsIn rule [] flat.expr := by
  intro path scope u h
  have hroute : r.resultPart.route = [] := if_pos hsize
  rw [hroute]
  have htree : (r.expr.retag (r.positions 0)).bindTags [] = flat.expr := by
    rw [hplaced.expr]
    refine Tree.replace_eq_self (fun t => ?_) _
    cases hb : t.bound? [] with
    | none => rfl
    | some u =>
      obtain ⟨i, n, sp, -, hn, -⟩ := Tree.bound?_eq_some hb
      simp at hn
  have hempty : NameScope.ofNames (([] : List Name).take r.resultPart.visible).zipIdx = [] := by
    rw [List.take_nil]
    rfl
  rw [hempty, List.append_nil, NameScope.under_nil, ← htree]
  exact h

/-- The positions of a part are those of the captures that its tags stand for. -/
theorem captures_of_mem_parts (hflat : r.flatten lift = .ok flat)
    (hpart : part ∈ r.parts rule lift) :
    List.Forall₂ (IsCaptureAt 0 (r.placed lift 0)) part.captures part.positions := by
  obtain ⟨hcaptures, hlinked⟩ := flattenAt_linked r hflat
  rcases mem_parts_iff.mp hpart with ⟨j, p, hp, rfl⟩ | rfl
  · exact hlinked p (List.mem_of_getElem? hp)
  · exact hcaptures

/-! ## 4. What a part's identifiers refer to -/

/-- What the identifiers of a part refer to in the emitted tree: to a declaration of the part, if
there is one in scope, and then to a hoisted binding. -/
structure Part.IsBound (rule : Visibility) (names : List Name) (emitted : Tree) (p : Part V) :
    Prop where
  /-- An identifier of the source keeps its place.  If it refers to a declaration of the source, it
  still does; if it is free, it refers to the hoisted binding of its name, or is free. -/
  identifiers : ∀ path n d, p.source.resolve? rule path = some (n, d) →
    emitted.resolve? rule (p.route ++ path) =
      some (n, (d.map (.under p.route)).or (hoisted? names p.visible n))
  /-- A tag becomes a reference with the name of its capture.  It refers to the hoisted binding of
  the capture, unless a declaration of that name is in scope where the tag stands. -/
  tags : ∀ path scope u i, p.source.at? rule path = some (scope, u) → u.shape = .tag i →
    ∃ k n path', p.positions[i]? = some k ∧ names[k]? = some n ∧
      (path' = path ∨ path' ++ [0] = path) ∧
      emitted.resolve? rule (p.route ++ path') =
        some (n, ((scope.lookup n).map (.under p.route)).or (some { path := [], index := k }))

/-- There are visible bindings for the tags of a part. -/
def Part.IsFitted (names : List Name) (p : Part V) : Prop :=
  ∀ i ∈ p.source.tags, ∃ k n, p.positions[i]? = some k ∧ k < p.visible ∧ names[k]? = some n

theorem Part.isBound_of_standsIn {emitted : Tree} (hnodup : names.Nodup)
    (hfit : part.IsFitted names) (h : part.StandsIn rule names emitted) :
    part.IsBound rule names emitted where
  identifiers path n d hsource := by
    obtain ⟨scope, u, hat, hu, rfl⟩ := Tree.resolve?_eq_some_iff.mp hsource
    have hretag := Tree.at?_retag part.positions hat
    rw [Tree.retag_of_reference hu] at hretag
    have hemitted := h path scope u (Tree.at?_bindTags_of_reference names hu hretag)
    refine Tree.resolve?_eq_some_iff.mpr ⟨_, u, hemitted, hu, ?_⟩
    rw [List.lookup_append, NameScope.lookup_under, lookup_hoisted hnodup]
  tags path scope u i hat hu := by
    have hi : i ∈ part.source.tags := by
      refine Tree.mem_tags_of_at? hat ?_
      rw [Tree.tags_eq, hu]
      exact List.mem_singleton_self i
    obtain ⟨k, n, hk, hvisible, hn⟩ := hfit i hi
    have hretag := Tree.at?_retag part.positions hat
    rw [Tree.retag_of_tag hu hk] at hretag
    obtain ⟨path', sp, hpath, hbound⟩ := Tree.at?_bindTags_of_tag hn rfl hretag
    have hemitted := h path' scope _ hbound
    refine ⟨k, n, path', hk, hn, hpath, Tree.resolve?_eq_some_iff.mpr ⟨_, _, hemitted, rfl, ?_⟩⟩
    rw [List.lookup_append, NameScope.lookup_under, lookup_hoisted hnodup,
      hoisted?_of_getElem? hnodup hvisible hn]

/-- The tree of a plain value among the placed captures is one of the lifted trees. -/
theorem mem_lifted_of_leaf (hflat : r.flatten lift = .ok flat) {j : Nat} {p : Placed V}
    (hp : (r.placed lift 0)[j]? = some p) (horigin : p.origin = .leaf) :
    p.source ∈ r.lifted lift := by
  have hplaced := flattenAt_placed r hflat
  have hleaf := (hplaced.captures.settled j p hp).positions_leaf horigin
  have htree : p.flat.tree = p.source := by rw [Placed.flat, hleaf, Tree.retag_nil]
  have hmem : p.flat ∈ flat.captures := by
    rw [hplaced.captures.flat_eq]
    exact List.mem_map_of_mem (List.mem_of_getElem? hp)
  rw [← leafTrees_flattenAt r hflat, ← htree]
  exact List.mem_map_of_mem (List.mem_filter.mpr ⟨hmem, decide_eq_true horigin⟩)

theorem isFitted_of_mem_parts (hflat : r.flatten lift = .ok flat)
    (hlift : ∀ t ∈ r.lifted lift, t.tags = []) (hlength : names.length = flat.captures.length)
    (hpart : part ∈ r.parts rule lift) : part.IsFitted names := by
  have hplaced := flattenAt_placed r hflat
  have hsize : names.length = r.size := hlength.trans hplaced.captures.length
  intro i hi
  rcases mem_parts_iff.mp hpart with ⟨j, p, hp, rfl⟩ | rfl
  · have hsettled := hplaced.captures.settled j p hp
    rw [Nat.zero_add] at hsettled
    have hj : j < r.size := by
      have hlt := (List.getElem?_eq_some_iff.mp hp).1
      rwa [← List.length_map Placed.flat, ← hplaced.captures.flat_eq,
        hplaced.captures.length] at hlt
    cases horigin : p.origin with
    | leaf =>
      have hnone : p.source.tags = [] := hlift _ (mem_lifted_of_leaf hflat hp horigin)
      have hi' : i ∈ p.source.tags := hi
      rw [hnone] at hi'
      exact absurd hi' List.not_mem_nil
    | nested =>
      have hlt : i < p.positions.length := hsettled.tags horigin i hi
      have hk := hsettled.positions_lt _ (List.getElem_mem hlt)
      refine ⟨p.positions[i], names[p.positions[i]], List.getElem?_eq_getElem hlt, ?_,
        List.getElem?_eq_getElem _⟩
      cases rule with
      | later => exact hk
      | everywhere => exact Nat.lt_trans hk hj
  · have hlt : i < (r.positions 0).length := hplaced.tags i hi
    have hk := Reified.positions_lt (List.getElem_mem hlt)
    rw [Nat.zero_add] at hk
    exact ⟨(r.positions 0)[i], names[(r.positions 0)[i]], List.getElem?_eq_getElem hlt, hk,
      List.getElem?_eq_getElem _⟩

end

/-! ## 5. The main statement -/

/-- The identifiers of the emitted tree refer to declarations of their part, and then to the hoisted
bindings. -/
structure Resolves (rule : Visibility) (lift : Lift V) (r : Reified V) (flat : Flattened)
    (emitted : Tree) (names : List Name) : Prop where
  /-- The first statements of the emitted block are the bindings. -/
  bindings : ∀ (k : Nat) c n, flat.captures[k]? = some c → names[k]? = some n →
    emitted.shape.children[k]? = some (Flattened.binding names c n)
  /-- Every expression and every tree of a plain value is a part. -/
  sources : ∀ t ∈ r.exprs ++ r.lifted lift, ∃ part ∈ r.parts rule lift, part.source = t
  /-- The position that a tag is given is that of the capture the tag stands for. -/
  captures : ∀ part ∈ r.parts rule lift,
    List.Forall₂ (IsCaptureAt 0 (r.placed lift 0)) part.captures part.positions
  parts : ∀ part ∈ r.parts rule lift, part.IsBound rule names emitted

/-- **A declaration of its own part is what an identifier refers to, and then a hoisted binding**,
whether the identifier was there or was put in the place of a tag. -/
theorem emit_resolves (rule : Visibility) (lift : Lift V) (r : Reified V) (flat : Flattened)
    (i : Interner) (hflat : r.flatten lift = .ok flat) (hlift : ∀ t ∈ r.lifted lift, t.tags = []) :
    ∃ names : List Name, names.length = flat.captures.length ∧
      (∀ k n, names[k]? = some n → (flat.emit.run i).2.lookup? n = some (captureNameText k)) ∧
      Resolves rule lift r flat (flat.emit.run i).1 names := by
  have hplaced := flattenAt_placed r hflat
  have hsize := hplaced.captures.length
  by_cases hnil : flat.captures = []
  · have hzero : r.size = 0 := by rw [← hsize, hnil, List.length_nil]
    rw [Flattened.run_emit_of_nil hnil]
    have hlength : ([] : List Name).length = flat.captures.length := by rw [hnil]; rfl
    refine ⟨[], hlength, by simp, by simp, exists_part rule,
      fun part hpart => captures_of_mem_parts hflat hpart, fun part hpart => ?_⟩
    have hfit := isFitted_of_mem_parts hflat hlift hlength hpart
    refine Part.isBound_of_standsIn List.nodup_nil hfit ?_
    rcases mem_parts_iff.mp hpart with ⟨j, p, hp, rfl⟩ | rfl
    · have hplacednil : r.placed lift 0 = [] := by
        rw [← List.map_eq_nil_iff, ← hplaced.captures.flat_eq, hnil]
      simp [hplacednil] at hp
    · exact standsIn_of_nil hplaced hzero
  · have hne : r.size ≠ 0 := by
      rw [← hsize]
      exact fun h => hnil (List.eq_nil_of_length_eq_zero h)
    have hlength := length_captureNames flat.captures.length i
    have hnodup := nodup_captureNames flat.captures.length i
    rw [Flattened.run_emit_of_ne_nil hnil]
    refine ⟨_, hlength, fun k n hn => lookup?_getElem_captureNames _ i hn, ?_, exists_part rule,
      fun part hpart => captures_of_mem_parts hflat hpart, fun part hpart => ?_⟩
    · intro k c n hc hn
      have hstat := Flattened.getElem?_stats hc hn
      have hlt := (List.getElem?_eq_some_iff.mp hstat).1
      rw [Flattened.children_emitWith, List.getElem?_append_left hlt, hstat]
    · have hfit := isFitted_of_mem_parts hflat hlift hlength hpart
      refine Part.isBound_of_standsIn hnodup hfit ?_
      rcases mem_parts_iff.mp hpart with ⟨j, p, hp, rfl⟩ | rfl
      · exact standsIn_binding hplaced hlength hp
      · exact standsIn_result hplaced hlength hne

/-- A tag under a parameter, next to a free identifier; neither has the name of a capture. -/
theorem emit_resolves_lambda :
    let lift : Lift Nat := fun _ _ => some (.ofShape (.literal (.int 7)) .nowhere)
    let param : ValueDef Tree Tree :=
      { mods := {}, name := ⟨2⟩, tpe := none, init := none, span := .nowhere }
    let expr := Tree.apply (.ident ⟨1⟩ .nowhere)
      [.ofShape (.lambda [param] (.splice (.tag 0 .nowhere) .nowhere)) .nowhere] .nowhere
    let r : Reified Nat := .mk expr [.leaf 7 (.typeIdent ⟨3⟩ .nowhere)]
    ∃ flat names, r.flatten lift = .ok flat ∧ (∀ t ∈ r.lifted lift, t.tags = []) ∧
      names.length = 1 ∧ Resolves .later lift r flat (flat.emit.run .new).1 names := by
  intro lift param expr r
  obtain ⟨flat, hflat, hcount⟩ : ∃ flat, r.flatten lift = .ok flat ∧ flat.captures.length = 1 :=
    ⟨_, rfl, rfl⟩
  have hlift : ∀ t ∈ r.lifted lift, t.tags = [] := by decide
  obtain ⟨names, hlength, -, hresolves⟩ := emit_resolves .later lift r flat .new hflat hlift
  exact ⟨flat, names, hflat, hlift, hlength.trans hcount, hresolves⟩

/-! ## 6. Names of captures in the source -/

/-- What it takes for a part to keep its identifiers and its captures apart. -/
structure Part.IsHygienic (rule : Visibility) (names : List Name) (emitted : Tree) (p : Part V) :
    Prop where
  /-- An identifier of the source refers to what it referred to, or is free if it was. -/
  identifiers : ∀ path n d, p.source.resolve? rule path = some (n, d) →
    emitted.resolve? rule (p.route ++ path) = some (n, d.map (.under p.route))
  /-- What stands for a tag refers to the hoisted binding of the capture. -/
  tags : ∀ path scope u i, p.source.at? rule path = some (scope, u) → u.shape = .tag i →
    ∃ k n path', p.positions[i]? = some k ∧ names[k]? = some n ∧
      (path' = path ∨ path' ++ [0] = path) ∧
      emitted.resolve? rule (p.route ++ path') = some (n, some { path := [], index := k })

/-- A part that neither has the name of a visible binding free nor declares it over a tag is
hygienic. -/
theorem Part.IsBound.isHygienic {rule : Visibility} {names : List Name} {emitted : Tree}
    {p : Part V} (h : p.IsBound rule names emitted)
    (hfree : ∀ path n, p.source.resolve? rule path = some (n, none) →
      hoisted? names p.visible n = none)
    (hdeclared : ∀ path scope u i, p.source.at? rule path = some (scope, u) → u.shape = .tag i →
      ∀ n ∈ names, scope.lookup n = none) :
    p.IsHygienic rule names emitted where
  identifiers path n d hd := by
    have hbound := h.identifiers path n d hd
    cases d with
    | some d => exact hbound
    | none =>
      rw [hfree path n hd] at hbound
      exact hbound
  tags path scope u i hat hu := by
    obtain ⟨k, n, path', hk, hn, hpath, hresolve⟩ := h.tags path scope u i hat hu
    rw [hdeclared path scope u i hat hu n (List.mem_of_getElem? hn)] at hresolve
    exact ⟨k, n, path', hk, hn, hpath, hresolve⟩

/-- The name of a capture, free in the source, is caught by the binding of the capture; and as a
parameter it catches the reference to the capture. -/
theorem not_isHygienic_captureName :
    let lift : Lift Nat := fun _ _ => some (.ofShape (.literal (.int 7)) .nowhere)
    let known := Interner.new.intern (captureNameText 0)
    let n := known.1
    let param : ValueDef Tree Tree :=
      { mods := {}, name := n, tpe := none, init := none, span := .nowhere }
    let expr := Tree.apply (.ident n .nowhere)
      [.ofShape (.lambda [param] (.tag 0 .nowhere)) .nowhere] .nowhere
    let r : Reified Nat := .mk expr [.leaf 7 (.typeIdent ⟨2⟩ .nowhere)]
    ∃ flat, r.flatten lift = .ok flat ∧ (∀ t ∈ r.lifted lift, t.tags = []) ∧
      ∀ rule,
        let emitted := (flat.emit.run known.2).1
        expr.resolve? rule [0] = some (n, none) ∧
          emitted.resolve? rule [1, 0] = some (n, some { path := [], index := 0 }) ∧
          (expr.at? rule [1, 0]).map Prod.snd = some (.tag 0 .nowhere) ∧
          emitted.resolve? rule [1, 1, 0] = some (n, some { path := [1, 1], index := 0 }) ∧
          ∀ names, ¬ ∀ part ∈ r.parts rule lift, part.IsHygienic rule names emitted := by
  intro lift known n param expr r
  obtain ⟨flat, hflat, hemit⟩ : ∃ flat, r.flatten lift = .ok flat ∧ ∀ rule,
      (flat.emit.run known.2).1.resolve? rule [1, 0] = some (n, some { path := [], index := 0 }) ∧
        (flat.emit.run known.2).1.resolve? rule [1, 1, 0] =
          some (n, some { path := [1, 1], index := 0 }) := by
    refine ⟨_, rfl, fun rule => ?_⟩
    cases rule <;> exact ⟨rfl, rfl⟩
  refine ⟨flat, hflat, by decide, fun rule => ⟨rfl, (hemit rule).1, rfl, (hemit rule).2, ?_⟩⟩
  intro names hall
  have hfree := (hall r.resultPart (mem_parts_iff.mpr (.inr rfl))).identifiers [0] n none rfl
  have hcaught := (hemit rule).1
  rw [show r.resultPart.route ++ [0] = [1, 0] from rfl, hcaught] at hfree
  simp at hfree

end Enrich
