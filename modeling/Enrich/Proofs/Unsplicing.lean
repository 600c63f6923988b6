import Enrich.Proofs.Guarding
import Enrich.Tree.Nodes
import Mathlib.Algebra.BigOperators.Group.List.Basic
import Mathlib.Algebra.GroupWithZero.Nat
/-!
# Splicing can be undone

Splicing wraps each reference to a reserved name and does nothing else, so taking the wrapping off
again gives back the tree.  What is taken off is exactly what was put on, also where the tree has
splices of its own: a splice that was there already holds a wrapped reference afterwards, or no
reference to a reserved name at all, and is passed over (`Tree.isReserved_spliceReserved`).

* `Tree.unsplice_spliceReserved`: unwrapping undoes splicing.
* `Tree.isSpliced_spliceReserved`: every reference to a reserved name is wrapped where it stands.
* `Tree.countP_isSplice_spliceReserved`: there are as many splices more as there are references.
* `spliceReserved_unsplice`: the main statement.
-/

namespace Enrich

namespace Tree

/-! ## 1. Nodes of single sorts -/

/-- A reference has nothing inside it. -/
theorem nodes_of_reference {extent : Extent} {t : Tree} {n : Name} (h : t.reference? = some n) :
    t.nodes extent = [t] := by
  rw [nodes_eq, reference?_eq_some_iff.mp h]
  cases extent <;> rfl

/-- The nodes of a kind are counted at the root, in the annotations and in the children. -/
theorem countP_nodes (p : Tree → Bool) (extent : Extent) (t : Tree) :
    (t.nodes extent).countP p = (p t).toNat +
      (((extent.annotations t.shape).map fun a => (a.nodes extent).countP p).sum +
        (t.shape.children.map fun c => (c.nodes extent).countP p).sum) := by
  rw [nodes_eq, List.countP_cons, List.flatMap_append, List.countP_append, List.countP_flatMap,
    List.countP_flatMap, Nat.add_comm]
  cases p t <;> rfl

/-! ## 2. References to reserved names, and splices -/

/-- Is the tree a reference to a reserved name? -/
def isReserved (r : ReservedNames) (t : Tree) : Bool := t.reference?.any r.contains

/-- Is the tree a splice? -/
def isSplice (t : Tree) : Bool := t.kind = .splice

section

variable {r : ReservedNames} {t : Tree}

theorem isReserved_iff :
    t.isReserved r = true ↔ ∃ n, t.reference? = some n ∧ r.contains n = true := by
  simp [isReserved, Option.any_eq_true]

theorem spliceReserved_of_isReserved (h : t.isReserved r = true) :
    t.spliceReserved r = splice t t.span := by
  obtain ⟨n, hn, hr⟩ := isReserved_iff.mp h
  exact spliceReserved_of_ident (reference?_eq_some_iff.mp hn) hr

theorem spliceReserved_of_not_isReserved (h : t.isReserved r = false) :
    t.spliceReserved r = ⟨t.shape.map (spliceReserved r), t.span, t.ty⟩ := by
  refine spliceReserved_of_not_ident fun n hn => Bool.eq_false_iff.mpr fun hr => ?_
  have := isReserved_iff.mpr ⟨n, reference?_eq_some_iff.mpr hn, hr⟩
  exact Bool.false_ne_true (h.symm.trans this)

/-- **No reference to a reserved name is left at the root**: it is wrapped. -/
theorem isReserved_spliceReserved (r : ReservedNames) (t : Tree) :
    (t.spliceReserved r).isReserved r = false := by
  cases h : t.isReserved r with
  | true =>
    rw [spliceReserved_of_isReserved h]
    rfl
  | false =>
    rw [spliceReserved_of_not_isReserved h, isReserved, reference?_map]
    exact h

end

/-! ## 3. Unwrapping -/

/-- What a splice holds, if that is a reference to a reserved name. -/
def splicedReference? (r : ReservedNames) (t : Tree) : Option Tree :=
  match t.shape with
  | .splice inner => if inner.isReserved r then some inner else none
  | _ => none

/-- Takes the splices off the references to reserved names, from the root downwards. -/
def unsplice (r : ReservedNames) (t : Tree) : Tree := t.replace (splicedReference? r)

/-- **Unwrapping undoes splicing.** -/
theorem unsplice_spliceReserved (r : ReservedNames) (t : Tree) :
    (t.spliceReserved r).unsplice r = t := by
  induction t using induction with
  | step t _ ih =>
    cases h : t.isReserved r with
    | true =>
      rw [spliceReserved_of_isReserved h]
      have hwrapped : (splice t t.span).splicedReference? r = some t := if_pos h
      exact replace_of_some hwrapped
    | false =>
      rw [spliceReserved_of_not_isReserved h]
      -- a splice that was there before holds no bare reference any more
      have hkept : splicedReference? r ⟨t.shape.map (spliceReserved r), t.span, t.ty⟩ = none := by
        obtain ⟨s, sp, ty⟩ := t
        cases s with
        | splice inner => exact if_neg (by simp [isReserved_spliceReserved r inner])
        | _ => rfl
      have hshape : (t.shape.map (spliceReserved r)).map (unsplice r) = t.shape := by
        rw [Shape.map, Shape.map, Shape.bimap_bimap]
        exact (Shape.bimap_congr (fun _ _ => rfl) ih).trans t.shape.bimap_id
      rw [unsplice, replace_of_none hkept]
      change (⟨(t.shape.map (spliceReserved r)).map (unsplice r), t.span, t.ty⟩ : Tree) = t
      rw [hshape, eta]

theorem spliceReserved_injective (r : ReservedNames) : Function.Injective (spliceReserved r) :=
  Function.LeftInverse.injective (unsplice_spliceReserved r)

/-! ## 4. What a spliced tree looks like -/

/-- Every reference to a reserved name in the code is what a splice holds, and the splice has its
span. -/
structure IsSpliced (r : ReservedNames) (t : Tree) : Prop where
  root : t.isReserved r = false
  inside : ∀ p ∈ t.nodes .code, ∀ c ∈ p.shape.children, c.isReserved r = true →
    p.shape = .splice c ∧ p.span = c.span

theorem isSpliced_spliceReserved (r : ReservedNames) (t : Tree) :
    (t.spliceReserved r).IsSpliced r := by
  refine ⟨isReserved_spliceReserved r t, ?_⟩
  induction t using induction with
  | step t _ ih =>
    intro p hp c hc hreserved
    cases h : t.isReserved r with
    | true =>
      rw [spliceReserved_of_isReserved h, mem_nodes_code_iff] at hp
      rcases hp with rfl | ⟨u, hu, hp⟩
      · obtain rfl : c = t := List.mem_singleton.mp hc
        exact ⟨rfl, rfl⟩
      · -- below the new splice there is the reference, and nothing below that
        obtain rfl : u = t := List.mem_singleton.mp hu
        obtain ⟨n, hn, -⟩ := isReserved_iff.mp h
        rw [nodes_of_reference hn, List.mem_singleton] at hp
        rw [hp, reference?_eq_some_iff.mp hn] at hc
        exact absurd hc List.not_mem_nil
    | false =>
      rw [spliceReserved_of_not_isReserved h, mem_nodes_code_iff, Shape.map,
        Shape.children_bimap] at hp
      rcases hp with rfl | ⟨u, hu, hp⟩
      · rw [Shape.children_bimap] at hc
        obtain ⟨c', -, rfl⟩ := List.mem_map.mp hc
        exact absurd (isReserved_spliceReserved r c' ▸ hreserved) Bool.false_ne_true
      · obtain ⟨c', hc', rfl⟩ := List.mem_map.mp hu
        exact ih c' hc' p hp c hc hreserved

/-- **As many splices more as there are references** to reserved names, and none of them in an
annotation. -/
theorem countP_isSplice_spliceReserved (r : ReservedNames) (extent : Extent) (t : Tree) :
    ((t.spliceReserved r).nodes extent).countP isSplice =
      (t.nodes extent).countP isSplice + (t.nodes .code).countP (isReserved r) := by
  induction t using induction with
  | step t _ ih =>
    cases h : t.isReserved r with
    | true =>
      obtain ⟨n, hn, -⟩ := isReserved_iff.mp h
      have hs := reference?_eq_some_iff.mp hn
      have hplain : t.isSplice = false := by simp [isSplice, kind, hs, Shape.kind]
      have hself : t.nodes extent = [t] := nodes_of_reference hn
      have hnodes : (splice t t.span).nodes extent = [splice t t.span, t] := by
        rw [nodes_eq, ← hself]
        cases extent <;> simp [splice, ofShape, Extent.annotations, Shape.annotations,
          Shape.children]
      have hwrapped : (splice t t.span).isSplice = true := rfl
      rw [spliceReserved_of_isReserved h, hnodes, hself, nodes_of_reference hn]
      simp [hplain, hwrapped, h]
    | false =>
      have hroot : isSplice ⟨t.shape.map (spliceReserved r), t.span, t.ty⟩ = t.isSplice := by
        obtain ⟨s, sp, ty⟩ := t
        cases s <;> rfl
      have hchildren : (t.shape.children.map fun c =>
            ((c.spliceReserved r).nodes extent).countP isSplice).sum =
          (t.shape.children.map fun c => (c.nodes extent).countP isSplice).sum +
            (t.shape.children.map fun c => (c.nodes .code).countP (isReserved r)).sum := by
        rw [List.map_congr_left ih, List.sum_map_add]
      rw [spliceReserved_of_not_isReserved h, countP_nodes, countP_nodes (t := t),
        countP_nodes (isReserved r), hroot, h, Shape.map, extent.annotations_bimap,
        Shape.children_bimap, List.map_id, List.map_map]
      simp only [Function.comp_def, Bool.toNat_false, Nat.zero_add, Extent.annotations,
        List.map_nil, List.sum_nil, hchildren]
      omega

/-- **Splicing changes a tree exactly if it refers to a reserved name.** -/
theorem spliceReserved_eq_self_iff {r : ReservedNames} {t : Tree} :
    t.spliceReserved r = t ↔ ∀ u ∈ t.nodes .code, u.isReserved r = false := by
  constructor
  · intro h u hu
    have hcount := countP_isSplice_spliceReserved r .code t
    rw [h, Nat.left_eq_add, List.countP_eq_zero] at hcount
    exact Bool.eq_false_iff.mpr (hcount u hu)
  · induction t using induction with
    | step t _ ih =>
      intro h
      have hroot := h t (mem_nodes_code_iff.mpr (.inl rfl))
      have hchildren : t.shape.map (spliceReserved r) = t.shape.bimap id id :=
        Shape.bimap_congr (fun _ _ => rfl) fun c hc =>
          ih c hc fun u hu => h u (mem_nodes_code_iff.mpr (.inr ⟨c, hc, hu⟩))
      rw [spliceReserved_of_not_isReserved hroot, hchildren, Shape.bimap_id, eta]

end Tree

/-! ## 5. The main statement -/

/-- **Splicing loses nothing and touches nothing else.**  Unwrapping gives back the tree, so no two
trees become the same.  In the result every reference to a reserved name is what a splice holds;
there are as many splices more as there were such references; and where there was none, nothing
changes. -/
theorem spliceReserved_unsplice (r : ReservedNames) :
    (∀ t : Tree, (t.spliceReserved r).unsplice r = t) ∧
      Function.Injective (Tree.spliceReserved r) ∧
      ∀ t : Tree, (t.spliceReserved r).IsSpliced r ∧
        (∀ extent, ((t.spliceReserved r).nodes extent).countP Tree.isSplice =
          (t.nodes extent).countP Tree.isSplice + (t.nodes .code).countP (Tree.isReserved r)) ∧
        (t.spliceReserved r = t ↔ ∀ u ∈ t.nodes .code, u.isReserved r = false) :=
  ⟨Tree.unsplice_spliceReserved r, Tree.spliceReserved_injective r, fun t =>
    ⟨Tree.isSpliced_spliceReserved r t,
      fun extent => Tree.countP_isSplice_spliceReserved r extent t,
      Tree.spliceReserved_eq_self_iff⟩⟩

/-- With `p` reserved, `'{ ${ p }(p) }` becomes `'{ ${ ${ p } }(${ p }) }`, and unwrapping leaves
the splice that was there before. -/
theorem spliceReserved_unsplice_spliced :
    let r : ReservedNames := ⟨[⟨5⟩]⟩
    let p := Tree.ident ⟨5⟩ .nowhere
    let spliced := Tree.splice p .nowhere
    let t := Tree.quote (.apply spliced [p] .nowhere) .nowhere
    let t' := Tree.quote (.apply (.splice spliced .nowhere) [spliced] .nowhere) .nowhere
    t.spliceReserved r = t' ∧ t'.unsplice r = t ∧ (t'.nodes .code).countP Tree.isSplice = 3 := by
  intro r p spliced t t'
  obtain ⟨hback, -, hall⟩ := spliceReserved_unsplice r
  obtain ⟨-, hcount, -⟩ := hall t
  have hsplice : t.spliceReserved r = t' := by decide
  refine ⟨hsplice, hsplice ▸ hback t, ?_⟩
  rw [← hsplice, hcount .code]
  decide

end Enrich
