import Enrich.Proofs.Placement
import Mathlib.Data.List.Infix
/-!
# The levels of a reified value

A reified value is made of levels: its own captures are one, and every nested value among the
captures of a level has a level of its own (`Reified.HasLevel`).  Where a level goes is told by sums
of sizes alone.  The captures of a level go from its base on, one after the other, each with all
that is below it; and the flat capture of a capture itself is the last of what it comes to
(`flatPosition`).

What a level flattens to stands as one piece in the flat captures, so what is said here about the
captures of one level is read off that piece.

Flat captures are captures of one level, with plain values.  Flattened again, they stay where they
are, and so does every tag.

* `getElem?_flattenCaptures`: the piece of a capture among those of its level.
* `flattenAt_of_hasLevel`: the piece of a level among the flat captures.
* `flatten_isLaidOut`: the main statement about positions.
* `flatten_asReified`: the main statement about flattening again.
-/

namespace Enrich

variable {V : Type} {lift : Lift V}

/-! ## 1. Levels and positions -/

/-- How many flat captures captures come to: the sum of their sizes. -/
def flatCount (cs : List (Capture V)) : Nat := cs.foldr (fun c n => c.size + n) 0

theorem flatCount_cons (c : Capture V) (cs : List (Capture V)) :
    flatCount (c :: cs) = c.size + flatCount cs := rfl

theorem flatCount_append (cs cs' : List (Capture V)) :
    flatCount (cs ++ cs') = flatCount cs + flatCount cs' := by
  induction cs with
  | nil => exact (Nat.zero_add _).symm
  | cons c cs ih => rw [List.cons_append, flatCount_cons, flatCount_cons, ih, Nat.add_assoc]

theorem flatCount_take_succ {cs : List (Capture V)} {j : Nat} {c : Capture V}
    (h : cs[j]? = some c) : flatCount (cs.take (j + 1)) = flatCount (cs.take j) + c.size := by
  rw [List.take_add_one, h, flatCount_append]
  rfl

theorem Reified.size_eq_flatCount (r : Reified V) : r.size = flatCount r.captures := by
  cases r with
  | mk expr cs => exact Reified.size_mk expr cs

/-- The position of the `j`-th of captures that go from `base` on: the last of the positions that
the captures up to it take. -/
def flatPosition (base : Nat) (cs : List (Capture V)) (j : Nat) : Nat :=
  base + flatCount (cs.take (j + 1)) - 1

/-- The levels of a reified value, each with the position from which on its captures go. -/
inductive Reified.HasLevel (r : Reified V) : Nat → Reified V → Prop
  | root : r.HasLevel 0 r
  /-- The level of the value that is nested in the `j`-th capture of a level. -/
  | nested {base j : Nat} {s inner : Reified V} {tpe : Tree} : r.HasLevel base s →
      s.captures[j]? = some (.nested inner tpe) →
      r.HasLevel (base + flatCount (s.captures.take j)) inner

/-- The positions of captures, told from the first to the last, are those told from sums. -/
theorem getElem?_capturePositions {cs : List (Capture V)} {base j : Nat} (h : j < cs.length) :
    (capturePositions base cs)[j]? = some (flatPosition base cs j) := by
  induction cs generalizing base j with
  | nil => exact absurd h (Nat.not_lt_zero j)
  | cons c cs ih =>
    cases j with
    | zero => simp [capturePositions, flatPosition, flatCount]
    | succ j =>
      rw [capturePositions, List.getElem?_cons_succ, ih (Nat.lt_of_succ_lt_succ h), flatPosition,
        flatPosition, List.take_succ_cons, flatCount_cons, Nat.add_assoc]

theorem length_capturePositions (base : Nat) (cs : List (Capture V)) :
    (capturePositions base cs).length = cs.length := by
  induction cs generalizing base with
  | nil => rfl
  | cons c cs ih => rw [capturePositions, List.length_cons, ih, List.length_cons]

/-! ## 2. Numbers for tags -/

namespace Tree

/-- The tree with the number `number i` for every tag `i` in its code, at the place of the tag.
Everything else stays. -/
def renumber (number : Nat → Nat) : Tree → Tree := fold fun t s =>
  match s with
  | .tag i => tag (number i) t.span
  | s => ⟨s.map Prod.snd, t.span, t.ty⟩

theorem renumber_of_tag {number : Nat → Nat} {t : Tree} {i : Nat} (h : t.shape = .tag i) :
    t.renumber number = tag (number i) t.span := by
  rw [renumber, fold_eq, h]
  rfl

theorem renumber_of_not_tag {number : Nat → Nat} {t : Tree} (h : ∀ i, t.shape ≠ .tag i) :
    t.renumber number = ⟨t.shape.map (renumber number), t.span, t.ty⟩ := by
  rw [renumber, fold_eq]
  split
  · rename_i i hi
    cases hs : t.shape <;> simp_all [Shape.map, Shape.bimap]
  · simp only [Shape.map, Shape.bimap_bimap]
    rfl

theorem mem_tags_of_tag {t : Tree} {i : Nat} (h : t.shape = .tag i) : i ∈ t.tags := by
  rw [tags_eq, h]
  exact List.mem_singleton_self i

theorem mem_tags_of_mem_children {t c : Tree} {i : Nat} (h : ∀ i, t.shape ≠ .tag i)
    (hc : c ∈ t.shape.children) (hi : i ∈ c.tags) : i ∈ t.tags := by
  rw [tags_eq]
  split
  · rename_i k hk
    exact absurd hk (h k)
  · exact List.mem_flatMap.mpr ⟨c, hc, hi⟩

/-- A list of numbers for all tags renumbers them. -/
theorem retag_eq_renumber {positions : List Nat} {number : Nat → Nat} {t : Tree}
    (h : ∀ i ∈ t.tags, positions[i]? = some (number i)) :
    t.retag positions = t.renumber number := by
  induction t using induction with
  | step t _ ih =>
    by_cases htag : ∃ i, t.shape = .tag i
    · obtain ⟨i, hi⟩ := htag
      rw [retag_of_tag hi (h i (mem_tags_of_tag hi)), renumber_of_tag hi]
    · have hnot := not_exists.mp htag
      have hc : t.shape.map (retag positions) = t.shape.map (renumber number) :=
        Shape.bimap_congr (fun _ _ => rfl) fun c hc =>
          ih c hc fun i hi => h i (mem_tags_of_mem_children hnot hc hi)
      rw [retag_of_not_tag hnot, renumber_of_not_tag hnot, hc]

/-- Numbering anew twice is numbering anew once. -/
theorem renumber_renumber (number number' : Nat → Nat) (t : Tree) :
    (t.renumber number).renumber number' = t.renumber (number' ∘ number) := by
  induction t using induction with
  | step t _ ih =>
    by_cases htag : ∃ i, t.shape = .tag i
    · obtain ⟨i, hi⟩ := htag
      rw [renumber_of_tag hi, renumber_of_tag hi]
      exact renumber_of_tag rfl
    · have hnot := not_exists.mp htag
      have hroot : ∀ i, t.shape.map (renumber number) ≠ .tag i := by
        intro i
        cases hs : t.shape <;> simp_all [Shape.map, Shape.bimap]
      have hc : t.shape.map (renumber number' ∘ renumber number) =
          t.shape.map (renumber (number' ∘ number)) :=
        Shape.bimap_congr (fun _ _ => rfl) ih
      rw [renumber_of_not_tag hnot, renumber_of_not_tag hnot, ← hc]
      refine (renumber_of_not_tag hroot).trans ?_
      simp only [Shape.map, Shape.bimap_bimap]
      rfl

end Tree

/-! ## 3. The piece of a level -/

/-- **A capture is flattened as one piece** of what its level is flattened to. -/
theorem getElem?_flattenCaptures {cs : List (Capture V)} {base j : Nat} {positions : List Nat}
    {flat : List FlatCapture} {c : Capture V}
    (h : flattenCaptures lift base cs = .ok (positions, flat)) (hc : cs[j]? = some c) :
    ∃ piece, c.flattenAt lift (base + flatCount (cs.take j)) = .ok piece ∧
      piece <+: flat.drop (flatCount (cs.take j)) := by
  induction cs generalizing base j positions flat with
  | nil => simp at hc
  | cons c' cs ih =>
    obtain ⟨first, rest, positions', hfirst, hrest, -, rfl⟩ := flattenCaptures_cons_eq_ok h
    cases j with
    | zero =>
      cases hc
      exact ⟨first, hfirst, List.prefix_append first rest⟩
    | succ j =>
      have hlength : first.length = c'.size := (captureFlattenAt_placed c' hfirst).length
      obtain ⟨piece, hpiece, hprefix⟩ := ih hrest hc
      refine ⟨piece, ?_, ?_⟩
      · rw [List.take_succ_cons, flatCount_cons, ← hlength, ← Nat.add_assoc]
        exact hpiece
      · rw [List.take_succ_cons, flatCount_cons, ← hlength, ← List.drop_drop, List.drop_left]
        exact hprefix

/-- **A level is flattened as one piece** of what the whole value is flattened to. -/
theorem flattenAt_of_hasLevel {r s : Reified V} {flat : Flattened} {base : Nat}
    (hflat : r.flatten lift = .ok flat) (h : r.HasLevel base s) :
    ∃ piece, s.flattenAt lift base = .ok piece ∧ piece.captures <+: flat.captures.drop base := by
  induction h with
  | root => exact ⟨flat, hflat, List.prefix_rfl⟩
  | @nested base j s inner tpe _ hj ih =>
    obtain ⟨outer, houter, hprefix⟩ := ih
    cases s with
    | mk expr cs =>
      obtain ⟨positions, captures, hcs, -, rfl⟩ := flattenAt_mk_eq_ok houter
      obtain ⟨piece, hpiece, hin⟩ := getElem?_flattenCaptures hcs hj
      obtain ⟨own, hown, rfl⟩ := flattenAt_nested_eq_ok hpiece
      refine ⟨own, hown, ?_⟩
      have hinner := (List.prefix_append own.captures _).trans hin
      rw [← List.drop_drop]
      exact hinner.trans (List.IsPrefix.drop hprefix _)

/-! ## 4. What stands at a position -/

/-- What the flat capture of a capture has to be, if what is below the capture goes from `base`
on. -/
def Capture.StandsAs (lift : Lift V) (base : Nat) (c : Capture V) (f : FlatCapture) : Prop :=
  f.tpe = c.tpe ∧
    match c with
    | .leaf value tpe => f.origin = .leaf ∧ lift value tpe = some f.tree
    | .nested inner _ =>
      f.origin = .nested ∧ f.tree = inner.expr.renumber (flatPosition base inner.captures)

/-- The captures of the level `s` are where they have to be if they go from `base` on. -/
structure Reified.IsLaidOut (lift : Lift V) (flat : Flattened) (base : Nat) (s : Reified V) :
    Prop where
  /-- A tag stands for a capture of the level, so it has a position. -/
  tags : ∀ i ∈ s.expr.tags, i < s.captures.length
  captures : ∀ j c, s.captures[j]? = some c →
    ∃ f, flat.captures[flatPosition base s.captures j]? = some f ∧
      c.StandsAs lift (base + flatCount (s.captures.take j)) f

/-- The expression of a flattened value has the positions of the captures for the tags. -/
theorem Reified.IsPlaced.expr_eq_renumber {r : Reified V} {flat : Flattened} {base : Nat}
    (h : r.IsPlaced lift base flat) :
    (∀ i ∈ r.expr.tags, i < r.captures.length) ∧
      flat.expr = r.expr.renumber (flatPosition base r.captures) := by
  have htags : ∀ i ∈ r.expr.tags, i < r.captures.length := by
    intro i hi
    rw [← length_capturePositions base]
    exact h.tags i hi
  refine ⟨htags, ?_⟩
  rw [h.expr]
  exact Tree.retag_eq_renumber fun i hi => getElem?_capturePositions (htags i hi)

/-- The tags of a flattened expression refer to positions that its captures take. -/
theorem Reified.IsPlaced.tags_lt {r : Reified V} {flat : Flattened} {base : Nat}
    (h : r.IsPlaced lift base flat) : ∀ k ∈ flat.expr.tags, k < base + flat.captures.length := by
  intro k hk
  rw [h.expr] at hk
  rw [h.captures.length]
  exact Reified.positions_lt (Tree.mem_tags_retag h.tags k hk)

/-- The last flat capture of a capture is its own. -/
theorem exists_standsAs {c : Capture V} {base : Nat} {piece : List FlatCapture}
    (h : c.flattenAt lift base = .ok piece) :
    ∃ f, piece[c.size - 1]? = some f ∧ c.StandsAs lift base f := by
  cases c with
  | leaf value tpe =>
    obtain ⟨tree, htree, rfl⟩ := flattenAt_leaf_eq_ok h
    exact ⟨_, rfl, rfl, rfl, htree⟩
  | nested inner tpe =>
    obtain ⟨own, hown, rfl⟩ := flattenAt_nested_eq_ok h
    have hplaced := flattenAt_placed inner hown
    refine ⟨{ tree := own.expr, tpe, origin := .nested }, ?_, rfl, rfl,
      hplaced.expr_eq_renumber.2⟩
    rw [Capture.size, Nat.add_sub_cancel, ← hplaced.captures.length, List.getElem?_concat_length]

theorem isLaidOut_of_hasLevel {r s : Reified V} {flat : Flattened} {base : Nat}
    (hflat : r.flatten lift = .ok flat) (h : r.HasLevel base s) : s.IsLaidOut lift flat base := by
  obtain ⟨level, hlevel, hprefix⟩ := flattenAt_of_hasLevel hflat h
  refine ⟨(flattenAt_placed s hlevel).expr_eq_renumber.1, fun j c hc => ?_⟩
  cases s with
  | mk expr cs =>
    obtain ⟨positions, captures, hcs, -, rfl⟩ := flattenAt_mk_eq_ok hlevel
    obtain ⟨piece, hpiece, hin⟩ := getElem?_flattenCaptures hcs hc
    obtain ⟨f, hf, hstands⟩ := exists_standsAs hpiece
    refine ⟨f, ?_, hstands⟩
    have hwhole : piece <+: flat.captures.drop (base + flatCount (cs.take j)) := by
      rw [← List.drop_drop]
      exact hin.trans (List.IsPrefix.drop hprefix _)
    have hposition : flatPosition base cs j = base + flatCount (cs.take j) + (c.size - 1) := by
      have hsize := c.size_pos
      have hcount : flatCount (cs.take (j + 1)) = flatCount (cs.take j) + c.size :=
        flatCount_take_succ hc
      rw [flatPosition, hcount]
      omega
    obtain ⟨rest, hrest⟩ := hwhole
    change flat.captures[flatPosition base cs j]? = some f
    rw [hposition, ← List.getElem?_drop, ← hrest, List.getElem?_append_left, hf]
    exact (List.getElem?_eq_some_iff.mp hf).1

/-- **Where flattening puts what**, in terms of sums of sizes.  There are as many flat captures as
the sizes of the captures tell.  At every level, whose captures go from `base` on, the `j`-th
capture is at the last of the positions that the captures up to it take.  Its type is the declared
one, and it is the tree of a plain value or the expression of a nested one; and in the expression of
a level every tag has the position of its capture. -/
theorem flatten_isLaidOut (lift : Lift V) (r : Reified V) (flat : Flattened)
    (hflat : r.flatten lift = .ok flat) :
    flat.captures.length = flatCount r.captures ∧
      flat.expr = r.expr.renumber (flatPosition 0 r.captures) ∧
      ∀ base s, r.HasLevel base s → s.IsLaidOut lift flat base := by
  have hplaced := flattenAt_placed r hflat
  refine ⟨?_, hplaced.expr_eq_renumber.2, fun base s h => isLaidOut_of_hasLevel hflat h⟩
  rw [hplaced.captures.length, r.size_eq_flatCount]

/-- Of `[A, B{C, D}]` the captures of `B` go from position 1 on, and `B` itself is at position 3. -/
theorem flatten_isLaidOut_nested :
    let lift : Lift Nat := fun n _ => some (.ofShape (.literal (.int n)) .nowhere)
    let tpe := Tree.typeIdent ⟨2⟩ .nowhere
    let inner : Reified Nat := .mk (.apply (.tag 1 .nowhere) [.tag 0 .nowhere] .nowhere)
      [.leaf 7 tpe, .leaf 8 tpe]
    let r : Reified Nat := .mk (.apply (.tag 0 .nowhere) [.tag 1 .nowhere] .nowhere)
      [.leaf 6 tpe, .nested inner tpe]
    ∃ flat, r.flatten lift = .ok flat ∧ flat.captures.length = 4 ∧
      flat.expr = .apply (.tag 0 .nowhere) [.tag 3 .nowhere] .nowhere ∧
      inner.IsLaidOut lift flat 1 ∧
      (flat.captures[3]?).map FlatCapture.tree =
        some (.apply (.tag 2 .nowhere) [.tag 1 .nowhere] .nowhere) := by
  intro lift tpe inner r
  obtain ⟨flat, hflat⟩ : ∃ flat, r.flatten lift = .ok flat := ⟨_, rfl⟩
  obtain ⟨hlength, hexpr, hlevels⟩ := flatten_isLaidOut lift r flat hflat
  obtain ⟨f, hf, -, -, htree⟩ := (hlevels 0 r .root).captures 1 _ rfl
  refine ⟨flat, hflat, hlength, hexpr.trans ?_, hlevels 1 inner (.nested (j := 1) .root rfl), ?_⟩
  · decide
  · have hthree : flatPosition 0 r.captures 1 = 3 := by decide
    rw [hthree] at hf
    rw [hf, Option.map_some, htree]
    decide

/-! ## 5. Flat captures once more -/

namespace Flattened

/-- The flattened value as a reified value: each flat capture is a plain value, which is its
tree. -/
def asReified (f : Flattened) : Reified Tree :=
  .mk f.expr (f.captures.map fun c => .leaf c.tree c.tpe)

/-- The flattened value with all its captures said to be plain values. -/
def asPlain (f : Flattened) : Flattened :=
  { f with captures := f.captures.map fun c => { c with origin := .leaf } }

end Flattened

/-- Trees are plain values that stand for themselves. -/
def Lift.itself : Lift Tree := fun tree _ => some tree

/-- Plain values are taken in order, each at the next position. -/
theorem flattenCaptures_itself (base : Nat) (captures : List FlatCapture) :
    flattenCaptures .itself base (captures.map fun c => .leaf c.tree c.tpe) =
      .ok (List.range' base captures.length,
        captures.map fun c => { c with origin := .leaf }) := by
  induction captures generalizing base with
  | nil => rfl
  | cons c captures ih =>
    rw [List.map_cons, flattenCaptures, Capture.flattenAt]
    simp only [Lift.itself, pure_bind]
    change (flattenCaptures .itself (base + 1) _ >>= _) = _
    rw [ih]
    rfl

/-- Where the captures are flattened and there is a position for every tag, so is the level. -/
theorem flattenAt_mk_of_ok (expr : Tree) {cs : List (Capture V)} {base : Nat}
    {positions : List Nat} {captures : List FlatCapture}
    (hcs : flattenCaptures lift base cs = .ok (positions, captures))
    (htags : ∀ i ∈ expr.tags, i < positions.length) :
    (Reified.mk expr cs).flattenAt lift base =
      .ok { expr := expr.retag positions, captures } := by
  have hfind : expr.tags.find? (positions.length ≤ ·) = none := by
    rw [List.find?_eq_none]
    intro i hi
    have := htags i hi
    simpa using this
  rw [Reified.flattenAt, hcs]
  simp only [bind, Except.bind, hfind]
  rfl

/-- **Flattening is idempotent**: what has been flattened is flattened to itself, with the same
expression, and with the same trees and types at the same positions. -/
theorem flatten_asReified (lift : Lift V) (r : Reified V) (flat : Flattened)
    (hflat : r.flatten lift = .ok flat) : flat.asReified.flatten .itself = .ok flat.asPlain := by
  have hplaced := flattenAt_placed r hflat
  have hexpr := hplaced.expr_eq_renumber.2
  have htags : ∀ k ∈ flat.expr.tags, k < flat.captures.length := by
    simpa using hplaced.tags_lt
  let positions := List.range' 0 flat.captures.length
  -- the positions are the numbers that the tags have already
  have hretag : flat.expr.retag positions = flat.expr :=
    calc flat.expr.retag positions
        = flat.expr.renumber id := Tree.retag_eq_renumber fun k hk => by
          rw [List.getElem?_range' (htags k hk), Nat.zero_add, Nat.one_mul, id]
      _ = (r.expr.renumber (flatPosition 0 r.captures)).renumber id := by rw [← hexpr]
      _ = flat.expr := by rw [Tree.renumber_renumber, Function.id_comp, hexpr]
  have hlevel := flattenAt_mk_of_ok flat.expr (flattenCaptures_itself 0 flat.captures)
    fun k hk => by
      rw [List.length_range']
      exact htags k hk
  rw [hretag] at hlevel
  exact hlevel

/-- `[A, B{C, D}]`, flattened, and flattened again. -/
theorem flatten_asReified_nested :
    let lift : Lift Nat := fun n _ => some (.ofShape (.literal (.int n)) .nowhere)
    let tpe := Tree.typeIdent ⟨2⟩ .nowhere
    let inner : Reified Nat := .mk (.apply (.tag 1 .nowhere) [.tag 0 .nowhere] .nowhere)
      [.leaf 7 tpe, .leaf 8 tpe]
    let r : Reified Nat := .mk (.apply (.tag 0 .nowhere) [.tag 1 .nowhere] .nowhere)
      [.leaf 6 tpe, .nested inner tpe]
    ∃ flat, r.flatten lift = .ok flat ∧
      flat.captures.map FlatCapture.origin = [.leaf, .leaf, .leaf, .nested] ∧
      flat.asReified.flatten .itself = .ok flat.asPlain := by
  intro lift tpe inner r
  obtain ⟨flat, hflat, horigins⟩ : ∃ flat, r.flatten lift = .ok flat ∧
      flat.captures.map FlatCapture.origin = [.leaf, .leaf, .leaf, .nested] := ⟨_, rfl, by decide⟩
  exact ⟨flat, hflat, horigins, flatten_asReified lift r flat hflat⟩

end Enrich
