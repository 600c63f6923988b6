import Enrich.Proofs.Emission
/-!
# Where captures go

Flattening moves trees and renumbers their tags, and does nothing else.  Which tree goes where, and
which number each tag gets, can be told from the sizes of the captures alone: the captures of a
level take the positions from `base` on, each as many as its size, and the last of them is its own
(`capturePositions`).  `Reified.placed` lists the flat captures before renumbering.

So what flattening yields is known position by position, whether or not it respects what
`Flattened` promises.  It does wherever a tag is renumbered, for that goes by these positions.  The
tree of a plain value is taken as it is, and there the promise is the tree's to keep.

* `flattenAt_placed`: flattening places and renumbers.
* `flattenAt_linked`: a tag gets the position of its capture.
* `isBackward_iff`: every tag refers to an earlier position exactly if those of plain values do.
-/

namespace Enrich

variable {V : Type} {lift : Lift V}

/-! ## 1. Positions -/

/-- The positions of captures, if the first of them may use the positions from `base` on. -/
def capturePositions (base : Nat) : List (Capture V) → List Nat
  | [] => []
  | c :: cs => (base + c.size - 1) :: capturePositions (base + c.size) cs

/-- The positions of the captures of a reified value. -/
def Reified.positions (base : Nat) (r : Reified V) : List Nat := capturePositions base r.captures

theorem Capture.size_pos (c : Capture V) : 0 < c.size := by
  cases c <;> simp [Capture.size]

/-- The positions of captures are among those the captures take. -/
theorem capturePositions_lt {base k : Nat} {cs : List (Capture V)}
    (h : k ∈ capturePositions base cs) : k < base + cs.foldr (fun c n => c.size + n) 0 := by
  induction cs generalizing base with
  | nil => exact absurd h List.not_mem_nil
  | cons c cs ih =>
    rw [List.foldr_cons]
    have hc := c.size_pos
    rcases List.mem_cons.mp h with rfl | h
    · omega
    · have := ih h
      omega

/-! ## 2. Placed captures -/

/-- A capture that has its position, with the positions that its tags stand for. -/
structure Placed (V : Type) where
  capture : Capture V
  source : Tree
  positions : List Nat
  origin : CaptureOrigin

/-- The flat capture: every tag is given its position. -/
def Placed.flat (p : Placed V) : FlatCapture :=
  { tree := p.source.retag p.positions, tpe := p.capture.tpe, origin := p.origin }

mutual

/-- The captures of a reified value, at all levels, from position `base` on. -/
def Reified.placed (lift : Lift V) (base : Nat) : Reified V → List (Placed V)
  | .mk _ cs => placedCaptures lift base cs

/-- The captures that one capture stands for.  The tree of a plain value is taken as it is. -/
def Capture.placed (lift : Lift V) (base : Nat) : Capture V → List (Placed V)
  | .leaf value tpe => (lift value tpe).toList.map fun tree =>
    { capture := .leaf value tpe, source := tree, positions := [], origin := .leaf }
  | .nested r tpe => r.placed lift base ++
    [{ capture := .nested r tpe, source := r.expr, positions := r.positions base,
       origin := .nested }]

def placedCaptures (lift : Lift V) (base : Nat) : List (Capture V) → List (Placed V)
  | [] => []
  | c :: cs => c.placed lift base ++ placedCaptures lift (base + c.size) cs

end

mutual

/-- Every expression and every tree of a plain value is placed, but for the outermost expression. -/
theorem Reified.exists_placed : ∀ (r : Reified V) (base : Nat),
    ∀ t ∈ r.exprs ++ r.lifted lift, t = r.expr ∨ ∃ p ∈ r.placed lift base, p.source = t
  | .mk expr cs, base, t, ht => by
    rw [Reified.exprs, List.cons_append, List.mem_cons] at ht
    rcases ht with rfl | ht
    · exact .inl rfl
    · exact .inr (exists_placedCaptures cs base t ht)

theorem Capture.exists_placed : ∀ (c : Capture V) (base : Nat),
    ∀ t ∈ c.exprs ++ c.lifted lift, ∃ p ∈ c.placed lift base, p.source = t
  | .leaf value tpe, base, t, ht => by
    rw [Capture.exprs, List.nil_append, Capture.lifted] at ht
    exact ⟨_, List.mem_map_of_mem ht, rfl⟩
  | .nested r tpe, base, t, ht => by
    rcases r.exists_placed base t ht with rfl | ⟨p, hp, rfl⟩
    · exact ⟨_, List.mem_append_right _ (List.mem_singleton_self _), rfl⟩
    · exact ⟨p, List.mem_append_left _ hp, rfl⟩

theorem exists_placedCaptures : ∀ (cs : List (Capture V)) (base : Nat),
    ∀ t ∈ captureExprs cs ++ liftedCaptures lift cs, ∃ p ∈ placedCaptures lift base cs, p.source = t
  | [], base, t, ht => by simp [captureExprs, liftedCaptures] at ht
  | c :: cs, base, t, ht => by
    have hcases : t ∈ c.exprs ++ c.lifted lift ∨ t ∈ captureExprs cs ++ liftedCaptures lift cs := by
      simp only [captureExprs, liftedCaptures, List.mem_append] at ht ⊢
      tauto
    rcases hcases with ht | ht
    · obtain ⟨p, hp, rfl⟩ := c.exists_placed base t ht
      exact ⟨p, List.mem_append_left _ hp, rfl⟩
    · obtain ⟨p, hp, rfl⟩ := exists_placedCaptures cs (base + c.size) t ht
      exact ⟨p, List.mem_append_right _ hp, rfl⟩

end

theorem Tree.retag_nil (t : Tree) : t.retag [] = t := by
  refine Tree.replace_eq_self (fun t => ?_) t
  unfold Tree.renumbered?
  split <;> rfl

/-- What a placed capture at position `k` keeps to. -/
structure Placed.IsSettledAt (k : Nat) (p : Placed V) : Prop where
  /-- Its tags stand for captures before it. -/
  positions_lt : ∀ i ∈ p.positions, i < k
  /-- In a nested expression there is a position for every tag. -/
  tags : p.origin = .nested → ∀ i ∈ p.source.tags, i < p.positions.length
  /-- The tree of a plain value is left as it is. -/
  positions_leaf : p.origin = .leaf → p.positions = []

/-- The flat captures `flat` are the captures `placed`, which take `size` positions from `base`
on. -/
structure IsPlacedAt (base size : Nat) (placed : List (Placed V)) (flat : List FlatCapture) :
    Prop where
  flat_eq : flat = placed.map Placed.flat
  length : flat.length = size
  settled : AtPositions Placed.IsSettledAt base placed

theorem IsPlacedAt.length_placed {base size : Nat} {placed : List (Placed V)}
    {flat : List FlatCapture} (h : IsPlacedAt base size placed flat) : placed.length = size := by
  rw [← h.length, h.flat_eq, List.length_map]

/-- What was placed one after the other is placed together. -/
theorem IsPlacedAt.append {base size size' : Nat} {placed placed' : List (Placed V)}
    {flat flat' : List FlatCapture} (h : IsPlacedAt base size placed flat)
    (h' : IsPlacedAt (base + size) size' placed' flat') :
    IsPlacedAt base (size + size') (placed ++ placed') (flat ++ flat') where
  flat_eq := by rw [h.flat_eq, h'.flat_eq, List.map_append]
  length := by rw [List.length_append, h.length, h'.length]
  settled := by
    refine AtPositions.append_iff.mpr ⟨h.settled, ?_⟩
    rw [h.length_placed]
    exact h'.settled

/-- The flattened value `flat` is the value `r` with its captures placed from `base` on. -/
structure Reified.IsPlaced (lift : Lift V) (base : Nat) (r : Reified V) (flat : Flattened) :
    Prop where
  captures : IsPlacedAt base r.size (r.placed lift base) flat.captures
  expr : flat.expr = r.expr.retag (r.positions base)
  /-- There is a position for every tag. -/
  tags : ∀ i ∈ r.expr.tags, i < (r.positions base).length

/-- The captures of a value are placed before the value itself. -/
theorem Reified.positions_lt {base k : Nat} {r : Reified V} (h : k ∈ r.positions base) :
    k < base + r.size := by
  cases r with
  | mk expr cs =>
    rw [Reified.size_mk]
    exact capturePositions_lt h

theorem placed_leaf {base : Nat} {value : V} {tpe tree : Tree} (h : lift value tpe = some tree) :
    (Capture.leaf value tpe).placed lift base =
      [{ capture := .leaf value tpe, source := tree, positions := [], origin := .leaf }] := by
  simp only [Capture.placed, h, Option.toList, List.map_cons, List.map_nil]

/-- A leaf is placed at the base. -/
theorem isPlacedAt_leaf {base : Nat} {value : V} {tpe tree : Tree}
    (h : lift value tpe = some tree) :
    IsPlacedAt base 1 ((Capture.leaf value tpe).placed lift base)
      [{ tree, tpe, origin := .leaf }] := by
  rw [placed_leaf h]
  refine ⟨?_, rfl, AtPositions.cons_iff.mpr ⟨⟨by simp, ?_, fun _ => rfl⟩, .nil⟩⟩
  · simp only [List.map_cons, List.map_nil, Placed.flat, Tree.retag_nil]
    rfl
  · intro hnested
    contradiction

/-- A nested value is placed right after its own captures. -/
theorem isPlacedAt_nested {base : Nat} {r : Reified V} {tpe : Tree} {flat : Flattened}
    (h : r.IsPlaced lift base flat) :
    IsPlacedAt base (r.size + 1) ((Capture.nested r tpe).placed lift base)
      (flat.captures ++ [{ tree := flat.expr, tpe, origin := .nested }]) := by
  refine h.captures.append ⟨?_, rfl, AtPositions.cons_iff.mpr ⟨⟨?_, fun _ => h.tags, ?_⟩, .nil⟩⟩
  · rw [h.expr]
    rfl
  · exact fun i hi => Reified.positions_lt hi
  · intro hleaf
    contradiction

mutual

/-- **Flattening places and renumbers.** -/
theorem flattenAt_placed : ∀ (r : Reified V) {base : Nat} {flat : Flattened},
    r.flattenAt lift base = .ok flat → r.IsPlaced lift base flat
  | .mk expr cs, base, flat, h => by
    obtain ⟨positions, captures, hcs, htags, rfl⟩ := flattenAt_mk_eq_ok h
    obtain ⟨rfl, hplaced⟩ := flattenCaptures_placed cs hcs
    refine ⟨?_, rfl, htags⟩
    rw [Reified.size_mk]
    exact hplaced

theorem captureFlattenAt_placed : ∀ (c : Capture V) {base : Nat} {flat : List FlatCapture},
    c.flattenAt lift base = .ok flat → IsPlacedAt base c.size (c.placed lift base) flat
  | .leaf value tpe, base, flat, h => by
    obtain ⟨tree, htree, rfl⟩ := flattenAt_leaf_eq_ok h
    exact isPlacedAt_leaf htree
  | .nested r tpe, base, flat, h => by
    obtain ⟨inner, hr, rfl⟩ := flattenAt_nested_eq_ok h
    exact isPlacedAt_nested (flattenAt_placed r hr)

theorem flattenCaptures_placed : ∀ (cs : List (Capture V)) {base : Nat} {positions : List Nat}
    {flat : List FlatCapture}, flattenCaptures lift base cs = .ok (positions, flat) →
      positions = capturePositions base cs ∧
        IsPlacedAt base (cs.foldr (fun c n => c.size + n) 0) (placedCaptures lift base cs) flat
  | [], base, positions, flat, h => by
    cases h
    exact ⟨rfl, rfl, rfl, .nil⟩
  | c :: cs, base, positions, flat, h => by
    obtain ⟨first, rest, positions', hc, hcs, rfl, rfl⟩ := flattenCaptures_cons_eq_ok h
    have hfirst := captureFlattenAt_placed c hc
    rw [hfirst.length] at hcs ⊢
    obtain ⟨rfl, hrest⟩ := flattenCaptures_placed cs hcs
    rw [List.foldr_cons]
    exact ⟨rfl, hfirst.append hrest⟩

end

/-! ## 3. The capture at a position -/

/-- The captures that the tags of a placed capture stand for: those of the nested value. -/
def Placed.captures (p : Placed V) : List (Capture V) :=
  match p.capture with
  | .leaf _ _ => []
  | .nested r _ => r.captures

/-- The placed captures, from position `base` on, have the capture at the position. -/
def IsCaptureAt (base : Nat) (placed : List (Placed V)) (c : Capture V) (k : Nat) : Prop :=
  base ≤ k ∧ placed[k - base]?.map Placed.capture = some c

/-- The positions of the tags of each placed capture are those of the captures they stand for. -/
def IsLinkedAt (base : Nat) (placed : List (Placed V)) : Prop :=
  ∀ p ∈ placed, List.Forall₂ (IsCaptureAt base placed) p.captures p.positions

section

variable {base k : Nat} {placed placed' : List (Placed V)} {c : Capture V}

theorem IsCaptureAt.append_right (h : IsCaptureAt base placed c k) :
    IsCaptureAt base (placed ++ placed') c k := by
  obtain ⟨hbase, hcapture⟩ := h
  obtain ⟨p, hp, rfl⟩ := Option.map_eq_some_iff.mp hcapture
  refine ⟨hbase, ?_⟩
  rw [List.getElem?_append_left (List.getElem?_eq_some_iff.mp hp).1]
  exact hcapture

theorem IsCaptureAt.append_left (h : IsCaptureAt (base + placed.length) placed' c k) :
    IsCaptureAt base (placed ++ placed') c k := by
  obtain ⟨hbase, hcapture⟩ := h
  refine ⟨by omega, ?_⟩
  rw [List.getElem?_append_right (by omega), Nat.sub_sub]
  exact hcapture

theorem IsLinkedAt.append (h : IsLinkedAt base placed)
    (h' : IsLinkedAt (base + placed.length) placed') : IsLinkedAt base (placed ++ placed') := by
  intro p hp
  rcases List.mem_append.mp hp with hp | hp
  · exact (h p hp).imp fun _ _ => IsCaptureAt.append_right
  · exact (h' p hp).imp fun _ _ => IsCaptureAt.append_left

end

mutual

/-- **A tag is given the position of the capture it stands for**, at all levels. -/
theorem flattenAt_linked : ∀ (r : Reified V) {base : Nat} {flat : Flattened},
    r.flattenAt lift base = .ok flat →
      List.Forall₂ (IsCaptureAt base (r.placed lift base)) r.captures (r.positions base) ∧
        IsLinkedAt base (r.placed lift base)
  | .mk expr cs, base, flat, h => by
    obtain ⟨positions, captures, hcs, -, rfl⟩ := flattenAt_mk_eq_ok h
    exact flattenCaptures_linked cs hcs

theorem captureFlattenAt_linked : ∀ (c : Capture V) {base : Nat} {flat : List FlatCapture},
    c.flattenAt lift base = .ok flat →
      IsCaptureAt base (c.placed lift base) c (base + c.size - 1) ∧
        IsLinkedAt base (c.placed lift base)
  | .leaf value tpe, base, flat, h => by
    obtain ⟨tree, htree, rfl⟩ := flattenAt_leaf_eq_ok h
    rw [placed_leaf htree]
    refine ⟨⟨Nat.le_refl base, ?_⟩, fun p hp => ?_⟩
    · simp [Capture.size]
    · rw [List.mem_singleton.mp hp]
      exact .nil
  | .nested r tpe, base, flat, h => by
    obtain ⟨inner, hr, rfl⟩ := flattenAt_nested_eq_ok h
    obtain ⟨hcaptures, hlinked⟩ := flattenAt_linked r hr
    have hlength := (flattenAt_placed r hr).captures.length_placed
    refine ⟨⟨?_, ?_⟩, fun p hp => ?_⟩
    · simp [Capture.size]
    · have hown : base + (Capture.nested r tpe).size - 1 - base = r.size := by
        simp [Capture.size]
      rw [hown, Capture.placed, List.getElem?_append_right (by omega), hlength, Nat.sub_self]
      rfl
    · rcases List.mem_append.mp hp with hp | hp
      · exact (hlinked p hp).imp fun _ _ => IsCaptureAt.append_right
      · rw [List.mem_singleton.mp hp]
        exact hcaptures.imp fun _ _ => IsCaptureAt.append_right

theorem flattenCaptures_linked : ∀ (cs : List (Capture V)) {base : Nat} {positions : List Nat}
    {flat : List FlatCapture}, flattenCaptures lift base cs = .ok (positions, flat) →
      List.Forall₂ (IsCaptureAt base (placedCaptures lift base cs)) cs
          (capturePositions base cs) ∧
        IsLinkedAt base (placedCaptures lift base cs)
  | [], base, positions, flat, h => ⟨.nil, fun p hp => absurd hp List.not_mem_nil⟩
  | c :: cs, base, positions, flat, h => by
    obtain ⟨first, rest, positions', hc, hcs, -, -⟩ := flattenCaptures_cons_eq_ok h
    have hfirst := captureFlattenAt_placed c hc
    obtain ⟨hcapture, hlinked⟩ := captureFlattenAt_linked c hc
    rw [hfirst.length] at hcs
    obtain ⟨hcaptures, hlinked'⟩ := flattenCaptures_linked cs hcs
    rw [placedCaptures, capturePositions]
    rw [← hfirst.length_placed] at hcaptures hlinked' ⊢
    refine ⟨.cons ?_ (hcaptures.imp fun _ _ => IsCaptureAt.append_left),
      hlinked.append hlinked'⟩
    rw [hfirst.length_placed]
    exact hcapture.append_right

end

/-! ## 4. The trees of plain values -/

/-- The trees of the plain values among flat captures. -/
def leafTrees (flat : List FlatCapture) : List Tree :=
  (flat.filter (·.origin = .leaf)).map FlatCapture.tree

theorem leafTrees_append (flat flat' : List FlatCapture) :
    leafTrees (flat ++ flat') = leafTrees flat ++ leafTrees flat' := by
  rw [leafTrees, List.filter_append, List.map_append]
  rfl

mutual

/-- **The trees of plain values are taken as they are**, in order. -/
theorem leafTrees_flattenAt : ∀ (r : Reified V) {base : Nat} {flat : Flattened},
    r.flattenAt lift base = .ok flat → leafTrees flat.captures = r.lifted lift
  | .mk expr cs, base, flat, h => by
    obtain ⟨positions, captures, hcs, -, rfl⟩ := flattenAt_mk_eq_ok h
    exact leafTrees_flattenCaptures cs hcs

theorem leafTrees_captureFlattenAt : ∀ (c : Capture V) {base : Nat} {flat : List FlatCapture},
    c.flattenAt lift base = .ok flat → leafTrees flat = c.lifted lift
  | .leaf value tpe, base, flat, h => by
    obtain ⟨tree, htree, rfl⟩ := flattenAt_leaf_eq_ok h
    rw [Capture.lifted, htree]
    rfl
  | .nested r tpe, base, flat, h => by
    obtain ⟨inner, hr, rfl⟩ := flattenAt_nested_eq_ok h
    rw [leafTrees_append, leafTrees_flattenAt r hr]
    exact List.append_nil _

/-- The leaves of flattened captures are the trees that were lifted, in order. -/
theorem leafTrees_flattenCaptures : ∀ (cs : List (Capture V)) {base : Nat} {positions : List Nat}
    {flat : List FlatCapture}, flattenCaptures lift base cs = .ok (positions, flat) →
      leafTrees flat = liftedCaptures lift cs
  | [], base, positions, flat, h => by
    cases h
    rfl
  | c :: cs, base, positions, flat, h => by
    obtain ⟨first, rest, positions', hc, hcs, -, rfl⟩ := flattenCaptures_cons_eq_ok h
    rw [leafTrees_append, leafTrees_captureFlattenAt c hc, leafTrees_flattenCaptures cs hcs]
    rfl

end

/-! ## 5. Tags refer backwards -/

/-- Every tag in the expression or in the tree of a capture refers to an earlier position. -/
structure Flattened.IsBackward (f : Flattened) : Prop where
  captures : ∀ j (c : FlatCapture), f.captures[j]? = some c → ∀ k ∈ c.tree.tags, k < j
  expr : ∀ k ∈ f.expr.tags, k < f.captures.length

/-- A nested expression refers to earlier positions. -/
theorem Placed.tags_lt_of_nested {k : Nat} {p : Placed V} (h : p.IsSettledAt k)
    (horigin : p.origin = .nested) : ∀ i ∈ p.flat.tree.tags, i < k := by
  intro i hi
  exact h.positions_lt i (Tree.mem_tags_retag (h.tags horigin) i hi)

/-- **Tags refer backwards exactly if those in the trees of plain values do.**  The expression and
the nested expressions always keep to it, and the trees of plain values are taken as they are. -/
theorem isBackward_iff (lift : Lift V) (r : Reified V) (flat : Flattened)
    (hflat : r.flatten lift = .ok flat) :
    (flat.IsBackward ↔ ∀ j (c : FlatCapture), flat.captures[j]? = some c → c.origin = .leaf →
        ∀ k ∈ c.tree.tags, k < j) ∧
      (∀ k ∈ flat.expr.tags, k < flat.captures.length) ∧
      leafTrees flat.captures = r.lifted lift := by
  have hplaced := flattenAt_placed r hflat
  have hexpr : ∀ k ∈ flat.expr.tags, k < flat.captures.length := by
    intro k hk
    rw [hplaced.expr] at hk
    have := Reified.positions_lt (Tree.mem_tags_retag hplaced.tags k hk)
    rw [hplaced.captures.length]
    omega
  refine ⟨⟨fun h j c hc _ => h.captures j c hc, fun h => ⟨fun j c hc => ?_, hexpr⟩⟩, hexpr,
    leafTrees_flattenAt r hflat⟩
  cases horigin : c.origin with
  | leaf => exact h j c hc horigin
  | nested =>
    rw [hplaced.captures.flat_eq, List.getElem?_map] at hc
    obtain ⟨p, hp, rfl⟩ := Option.map_eq_some_iff.mp hc
    have hsettled := hplaced.captures.settled j p hp
    rw [Nat.zero_add] at hsettled
    exact Placed.tags_lt_of_nested hsettled horigin

/-- A plain value whose tree is a tag: nothing is before it that the tag could refer to. -/
theorem not_isBackward_tag :
    let lift : Lift Nat := fun _ _ => some (.tag 0 .nowhere)
    let r : Reified Nat := .mk (.tag 0 .nowhere) [.leaf 7 (.typeIdent ⟨2⟩ .nowhere)]
    ∃ flat, r.flatten lift = .ok flat ∧ ¬ flat.IsBackward := by
  intro lift r
  obtain ⟨flat, hflat, c, hc, horigin, htags⟩ : ∃ flat, r.flatten lift = .ok flat ∧
      ∃ c, flat.captures[0]? = some c ∧ c.origin = .leaf ∧ 0 ∈ c.tree.tags :=
    ⟨_, rfl, _, rfl, rfl, by decide⟩
  refine ⟨flat, hflat, fun h => ?_⟩
  exact Nat.lt_irrefl 0 ((isBackward_iff lift r flat hflat).1.mp h 0 c hc horigin 0 htags)

end Enrich
