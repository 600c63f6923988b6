import Enrich.Proofs.Filling
import Enrich.Proofs.Interning
import Enrich.Proofs.Runs
import Mathlib.Data.List.Forall2
/-!
# An emitted value comes to what was reified

A reified value is flattened and emitted in two steps, each with positions of its own: tags count
the captures of one level, flat positions count the captures of all levels, and the emitted block
has names.  What comes out is what one gets by putting each capture in its place directly
(`Reified.direct`).

The proof follows one table `d` from flat positions to trees, in which each flat capture is filled
from the captures before it.  Flattening is right about every such table (`Flattens`), and inlining
the emitted definitions from first to last builds such a table (`inline_definitions`).

* `flattenAt_spec`: flattening needs captures before their own position only, and keeps the value.
* `exists_table`: there is a table for captures that only need those before them.
* `emit_comesTo_direct`: the main statement.
-/

namespace Enrich

variable {V : Type}

/-! ## 1. The value as a tree -/

mutual

/-- The tree that a reified value stands for: each capture in its place. -/
def Reified.direct (lift : Lift V) : Reified V → Option Tree
  | .mk expr captures => do
    let trees ← directCaptures lift captures
    return expr.fill fun i => trees[i]?

/-- The tree that a capture stands for. -/
def Capture.direct (lift : Lift V) : Capture V → Option Tree
  | .leaf value tpe => lift value tpe
  | .nested value _ => value.direct lift

/-- The trees that captures stand for. -/
def directCaptures (lift : Lift V) : List (Capture V) → Option (List Tree)
  | [] => some []
  | c :: cs => do
    let tree ← c.direct lift
    let trees ← directCaptures lift cs
    return tree :: trees

end

mutual

/-- The expressions of all levels. -/
def Reified.exprs : Reified V → List Tree
  | .mk expr captures => expr :: captureExprs captures

def Capture.exprs : Capture V → List Tree
  | .leaf _ _ => []
  | .nested value _ => value.exprs

def captureExprs : List (Capture V) → List Tree
  | [] => []
  | c :: cs => c.exprs ++ captureExprs cs

end

mutual

/-- The trees of the plain values of all levels. -/
def Reified.lifted (lift : Lift V) : Reified V → List Tree
  | .mk _ captures => liftedCaptures lift captures

def Capture.lifted (lift : Lift V) : Capture V → List Tree
  | .leaf value tpe => (lift value tpe).toList
  | .nested value _ => value.lifted lift

def liftedCaptures (lift : Lift V) : List (Capture V) → List Tree
  | [] => []
  | c :: cs => c.lifted lift ++ liftedCaptures lift cs

end

/-! ## 2. Flattening -/

/-- What goes to the positions from `base` on, each with a property at its position. -/
def AtPositions {α : Type} (P : Nat → α → Prop) (base : Nat) (l : List α) : Prop :=
  ∀ j c, l[j]? = some c → P (base + j) c

namespace AtPositions

variable {α : Type} {P : Nat → α → Prop} {base : Nat} {c : α} {l l' : List α}

theorem nil : AtPositions P base [] := fun j c h => by simp at h

/-- The first of a list is at the base, and the list of the others starts one further on. -/
theorem cons_iff : AtPositions P base (c :: l) ↔ P base c ∧ AtPositions P (base + 1) l := by
  constructor
  · intro h
    refine ⟨h 0 c rfl, fun j c' hc' => ?_⟩
    rw [Nat.add_assoc, Nat.add_comm 1 j]
    exact h (j + 1) c' hc'
  · rintro ⟨hc, hl⟩ j c' hc'
    cases j with
    | zero =>
      cases hc'
      exact hc
    | succ j =>
      rw [Nat.add_comm j 1, ← Nat.add_assoc]
      exact hl j c' hc'

/-- The second of two lists starts where the first one ends. -/
theorem append_iff :
    AtPositions P base (l ++ l') ↔ AtPositions P base l ∧ AtPositions P (base + l.length) l' := by
  induction l generalizing base with
  | nil => exact ⟨fun h => ⟨nil, h⟩, fun h => h.2⟩
  | cons c l ih =>
    rw [List.cons_append, cons_iff, cons_iff, ih, and_assoc, List.length_cons, Nat.add_assoc,
      Nat.add_comm 1]

end AtPositions

/-- The capture at position `k` needs captures before it only. -/
def NeedsEarlier (k : Nat) (c : FlatCapture) : Prop := ∀ i ∈ c.tree.tags, i < k

/-- The table `d` has for position `k` what the capture there comes to. -/
def IsFilledAt (d : Nat → Option Tree) (k : Nat) (c : FlatCapture) : Prop :=
  d k = some (c.tree.fill d)

/-- What flattening a reified value from position `base` on has to do. -/
structure Reified.Flattens (lift : Lift V) (base : Nat) (r : Reified V) (flat : Flattened) :
    Prop where
  needs : AtPositions NeedsEarlier base flat.captures
  /-- The expression needs captures of this value only. -/
  expr_needs : ∀ i ∈ flat.expr.tags, i < base + flat.captures.length
  /-- Filled from a table, the expression is what the value stands for. -/
  direct : ∀ d, AtPositions (IsFilledAt d) base flat.captures →
    r.direct lift = some (flat.expr.fill d)
  /-- No reference is made up. -/
  references : ∀ t ∈ flat.expr :: flat.captures.map FlatCapture.tree, ∀ n ∈ t.references,
    ∃ u ∈ r.exprs ++ r.lifted lift, n ∈ u.references

/-- What flattening a capture from position `base` on has to do. -/
structure Capture.Flattens (lift : Lift V) (base : Nat) (c : Capture V)
    (flat : List FlatCapture) : Prop where
  needs : AtPositions NeedsEarlier base flat
  length_pos : 0 < flat.length
  /-- Any table has what the capture stands for at the last of its positions. -/
  direct : ∀ d, AtPositions (IsFilledAt d) base flat → ∃ tree, c.direct lift = some tree ∧
    d (base + flat.length - 1) = some tree
  references : ∀ t ∈ flat.map FlatCapture.tree, ∀ n ∈ t.references,
    ∃ u ∈ c.exprs ++ c.lifted lift, n ∈ u.references

/-- What flattening captures from position `base` on has to do. -/
structure FlattensCaptures (lift : Lift V) (base : Nat) (cs : List (Capture V))
    (positions : List Nat) (flat : List FlatCapture) : Prop where
  needs : AtPositions NeedsEarlier base flat
  positions_lt : ∀ k ∈ positions, k < base + flat.length
  /-- Any table has what the captures stand for at their positions. -/
  direct : ∀ d, AtPositions (IsFilledAt d) base flat → ∃ trees,
    directCaptures lift cs = some trees ∧ positions.map d = trees.map some
  references : ∀ t ∈ flat.map FlatCapture.tree, ∀ n ∈ t.references,
    ∃ u ∈ captureExprs cs ++ liftedCaptures lift cs, n ∈ u.references

section

variable {lift : Lift V} {base : Nat}

/-- A leaf fills one position, with what it was lifted to. -/
theorem Capture.flattens_leaf {value : V} {tpe tree : Tree} {origin : CaptureOrigin}
    (h : lift value tpe = some tree) (htags : tree.tags = []) :
    (Capture.leaf value tpe).Flattens lift base [{ tree, tpe, origin }] where
  needs := by
    refine AtPositions.cons_iff.mpr ⟨fun i hi => ?_, .nil⟩
    simp [htags] at hi
  length_pos := Nat.one_pos
  direct d hd := by
    have hbase : d base = some (tree.fill d) := (AtPositions.cons_iff.mp hd).1
    rw [Tree.fill_of_tags_eq_nil htags] at hbase
    exact ⟨tree, h, hbase⟩
  references t ht n hn := by
    refine ⟨tree, ?_, ?_⟩
    · simp [exprs, lifted, h]
    · rwa [List.mem_singleton.mp ht] at hn

/-- A nested value fills its own positions, and one more with its expression. -/
theorem Capture.flattens_nested {r : Reified V} {flat : Flattened} {tpe : Tree}
    {origin : CaptureOrigin} (h : r.Flattens lift base flat) :
    (Capture.nested r tpe).Flattens lift base
      (flat.captures ++ [{ tree := flat.expr, tpe, origin }]) where
  needs := AtPositions.append_iff.mpr ⟨h.needs, AtPositions.cons_iff.mpr ⟨h.expr_needs, .nil⟩⟩
  length_pos := by
    rw [List.length_append, List.length_singleton]
    omega
  direct d hd := by
    obtain ⟨hcaptures, hexpr⟩ := AtPositions.append_iff.mp hd
    have hlast : d (base + flat.captures.length) = some (flat.expr.fill d) :=
      (AtPositions.cons_iff.mp hexpr).1
    refine ⟨flat.expr.fill d, h.direct d hcaptures, ?_⟩
    rwa [List.length_append, List.length_singleton, ← Nat.add_assoc, Nat.add_sub_cancel]
  references t ht n hn := by
    refine h.references t ?_ n hn
    rw [List.map_append, List.mem_append] at ht
    rcases ht with ht | ht
    · exact List.mem_cons_of_mem _ ht
    · rw [List.mem_singleton.mp ht]
      exact List.mem_cons_self

theorem flattensCaptures_nil : FlattensCaptures lift base [] [] [] where
  needs := .nil
  positions_lt _ hk := absurd hk List.not_mem_nil
  direct _ _ := ⟨[], rfl, rfl⟩
  references _ ht := absurd ht List.not_mem_nil

/-- The captures of one level follow each other without a gap. -/
theorem flattensCaptures_cons {c : Capture V} {cs : List (Capture V)} {positions : List Nat}
    {flat rest : List FlatCapture} (hc : c.Flattens lift base flat)
    (hcs : FlattensCaptures lift (base + flat.length) cs positions rest) :
    FlattensCaptures lift base (c :: cs) ((base + flat.length - 1) :: positions)
      (flat ++ rest) where
  needs := AtPositions.append_iff.mpr ⟨hc.needs, hcs.needs⟩
  positions_lt := by
    intro k hk
    have hpos := hc.length_pos
    rw [List.length_append]
    rcases List.mem_cons.mp hk with rfl | hk
    · omega
    · have := hcs.positions_lt k hk
      omega
  direct d hd := by
    obtain ⟨hflat, hrest⟩ := AtPositions.append_iff.mp hd
    obtain ⟨tree, htree, hlast⟩ := hc.direct d hflat
    obtain ⟨trees, htrees, hpositions⟩ := hcs.direct d hrest
    refine ⟨tree :: trees, ?_, ?_⟩
    · simp only [directCaptures, htree, htrees]
      rfl
    · rw [List.map_cons, List.map_cons, hlast, hpositions]
  references t ht n hn := by
    rw [List.map_append, List.mem_append] at ht
    rcases ht with ht | ht
    · obtain ⟨u, hu, hnu⟩ := hc.references t ht n hn
      refine ⟨u, ?_, hnu⟩
      simp only [captureExprs, liftedCaptures, List.mem_append] at hu ⊢
      tauto
    · obtain ⟨u, hu, hnu⟩ := hcs.references t ht n hn
      refine ⟨u, ?_, hnu⟩
      simp only [captureExprs, liftedCaptures, List.mem_append] at hu ⊢
      tauto

/-- A level is what its captures are, with its tags turned into their positions. -/
theorem Reified.flattens_mk {expr : Tree} {cs : List (Capture V)} {positions : List Nat}
    {flat : List FlatCapture} (hcs : FlattensCaptures lift base cs positions flat)
    (htags : ∀ i ∈ expr.tags, i < positions.length) :
    (Reified.mk expr cs).Flattens lift base
      { expr := expr.retag positions, captures := flat } where
  needs := hcs.needs
  expr_needs i hi := hcs.positions_lt i (Tree.mem_tags_retag htags i hi)
  direct d hd := by
    obtain ⟨trees, htrees, hpositions⟩ := hcs.direct d hd
    -- a tag of this level, its flat position, and the tree there
    have htable : ∀ i ∈ expr.tags, ∃ k u, positions[i]? = some k ∧ d k = some u ∧
        trees[i]? = some u := by
      intro i hi
      have hlt := htags i hi
      have hk : positions[i]? = some positions[i] := List.getElem?_eq_getElem hlt
      have hmap := congrArg (·[i]?) hpositions
      simp only [List.getElem?_map, hk, Option.map_some] at hmap
      obtain ⟨u, hu, hdu⟩ := Option.map_eq_some_iff.mp hmap.symm
      exact ⟨_, u, hk, hdu.symm, hu⟩
    have hfill : expr.fill (fun i => trees[i]?) = (expr.retag positions).fill d := by
      rw [Tree.fill_retag fun i hi => ?_]
      · refine Tree.fill_congr fun i hi => ?_
        obtain ⟨k, u, hk, hd, hu⟩ := htable i hi
        exact ⟨u, hu, by rw [hk, Option.bind_some, hd]⟩
      · obtain ⟨k, u, hk, hd, -⟩ := htable i hi
        exact ⟨k, u, hk, hd⟩
    rw [Reified.direct, htrees, ← hfill]
    rfl
  references t ht n hn := by
    rcases List.mem_cons.mp ht with rfl | ht
    · refine ⟨expr, ?_, Tree.mem_references_retag n hn⟩
      simp [exprs]
    · obtain ⟨u, hu, hnu⟩ := hcs.references t ht n hn
      refine ⟨u, ?_, hnu⟩
      simp only [exprs, lifted, List.mem_append, List.mem_cons] at hu ⊢
      tauto

/-- A level can be flattened only if its captures can, and if each of its tags has one. -/
theorem flattenAt_mk_eq_ok {expr : Tree} {cs : List (Capture V)} {flat : Flattened}
    (h : (Reified.mk expr cs).flattenAt lift base = .ok flat) :
    ∃ positions captures, flattenCaptures lift base cs = .ok (positions, captures) ∧
      (∀ i ∈ expr.tags, i < positions.length) ∧
      flat = { expr := expr.retag positions, captures } := by
  rw [Reified.flattenAt] at h
  cases hcs : flattenCaptures lift base cs with
  | error e => simp [hcs, bind, Except.bind] at h
  | ok p =>
    simp only [hcs, bind, Except.bind] at h
    split at h
    · contradiction
    · rename_i hfind
      cases h
      refine ⟨p.1, p.2, rfl, fun i hi => ?_, rfl⟩
      have := List.find?_eq_none.mp hfind i hi
      simpa using this

theorem flattenAt_leaf_eq_ok {value : V} {tpe : Tree} {flat : List FlatCapture}
    (h : (Capture.leaf value tpe).flattenAt lift base = .ok flat) :
    ∃ tree, lift value tpe = some tree ∧ flat = [{ tree, tpe, origin := .leaf }] := by
  rw [Capture.flattenAt] at h
  cases ht : lift value tpe with
  | none => simp [ht] at h
  | some tree =>
    simp only [ht] at h
    cases h
    exact ⟨tree, rfl, rfl⟩

theorem flattenAt_nested_eq_ok {r : Reified V} {tpe : Tree} {flat : List FlatCapture}
    (h : (Capture.nested r tpe).flattenAt lift base = .ok flat) :
    ∃ inner, r.flattenAt lift base = .ok inner ∧
      flat = inner.captures ++ [{ tree := inner.expr, tpe, origin := .nested }] := by
  rw [Capture.flattenAt] at h
  cases hr : r.flattenAt lift base with
  | error e => simp [hr, bind, Except.bind] at h
  | ok inner =>
    simp only [hr, bind, Except.bind] at h
    cases h
    exact ⟨inner, rfl, rfl⟩

theorem flattenCaptures_cons_eq_ok {c : Capture V} {cs : List (Capture V)} {positions : List Nat}
    {flat : List FlatCapture} (h : flattenCaptures lift base (c :: cs) = .ok (positions, flat)) :
    ∃ first rest positions', c.flattenAt lift base = .ok first ∧
      flattenCaptures lift (base + first.length) cs = .ok (positions', rest) ∧
      positions = (base + first.length - 1) :: positions' ∧ flat = first ++ rest := by
  rw [flattenCaptures] at h
  cases hc : c.flattenAt lift base with
  | error e => simp [hc, bind, Except.bind] at h
  | ok first =>
    cases hcs : flattenCaptures lift (base + first.length) cs with
    | error e => simp [hc, hcs, bind, Except.bind] at h
    | ok p =>
      simp only [hc, hcs, bind, Except.bind] at h
      cases h
      exact ⟨first, p.2, p.1, rfl, hcs, rfl, rfl⟩

end

mutual

/-- **Flattening keeps the value**, and each flat capture needs captures before it only. -/
theorem flattenAt_spec {lift : Lift V} : ∀ (r : Reified V) {base : Nat} {flat : Flattened},
    (∀ t ∈ r.lifted lift, t.tags = []) → r.flattenAt lift base = .ok flat →
      r.Flattens lift base flat
  | .mk expr cs, base, flat, hl, h => by
    obtain ⟨positions, captures, hcs, htags, rfl⟩ := flattenAt_mk_eq_ok h
    exact Reified.flattens_mk (flattenCaptures_spec cs hl hcs) htags

theorem captureFlattenAt_spec {lift : Lift V} : ∀ (c : Capture V) {base : Nat}
    {flat : List FlatCapture}, (∀ t ∈ c.lifted lift, t.tags = []) →
      c.flattenAt lift base = .ok flat → c.Flattens lift base flat
  | .leaf value tpe, base, flat, hl, h => by
    obtain ⟨tree, htree, rfl⟩ := flattenAt_leaf_eq_ok h
    exact Capture.flattens_leaf htree (hl tree (by simp [Capture.lifted, htree]))
  | .nested r tpe, base, flat, hl, h => by
    obtain ⟨inner, hr, rfl⟩ := flattenAt_nested_eq_ok h
    exact Capture.flattens_nested (flattenAt_spec r hl hr)

theorem flattenCaptures_spec {lift : Lift V} : ∀ (cs : List (Capture V)) {base : Nat}
    {positions : List Nat} {flat : List FlatCapture},
    (∀ t ∈ liftedCaptures lift cs, t.tags = []) →
      flattenCaptures lift base cs = .ok (positions, flat) →
        FlattensCaptures lift base cs positions flat
  | [], base, positions, flat, _, h => by
    rw [flattenCaptures] at h
    cases h
    exact flattensCaptures_nil
  | c :: cs, base, positions, flat, hl, h => by
    obtain ⟨first, rest, positions', hc, hcs, rfl, rfl⟩ := flattenCaptures_cons_eq_ok h
    have hlc := fun t ht => hl t (List.mem_append_left _ ht)
    have hlcs := fun t ht => hl t (List.mem_append_right _ ht)
    exact flattensCaptures_cons (captureFlattenAt_spec c hlc hc) (flattenCaptures_spec cs hlcs hcs)

end

/-! ## 3. The table -/

/-- A table up to `base` can be continued over captures that need those before them only. -/
theorem exists_continuation : ∀ (flat : List FlatCapture) (base : Nat) (d : Nat → Option Tree),
    (∀ k < base, ∃ u, d k = some u) → AtPositions NeedsEarlier base flat →
      ∃ d', (∀ k < base, d' k = d k) ∧ AtPositions (IsFilledAt d') base flat
  | [], _, d, _, _ => ⟨d, fun _ _ => rfl, .nil⟩
  | c :: flat, base, d, hd, hneeds => by
    obtain ⟨hc, hflat⟩ := AtPositions.cons_iff.mp hneeds
    let d₁ : Nat → Option Tree := fun k => if k = base then some (c.tree.fill d) else d k
    have hold : ∀ k < base, d₁ k = d k := fun k hk => if_neg (by omega)
    have hnew : d₁ base = some (c.tree.fill d) := if_pos rfl
    obtain ⟨d', hkeep, hrest⟩ := exists_continuation flat (base + 1) d₁ (by
      intro k hk
      by_cases hkb : k = base
      · exact ⟨_, hkb ▸ hnew⟩
      · rw [hold k (by omega)]
        exact hd k (by omega)) hflat
    have hsame : ∀ k < base, d' k = d k := fun k hk => (hkeep k (by omega)).trans (hold k hk)
    refine ⟨d', hsame, AtPositions.cons_iff.mpr ⟨?_, hrest⟩⟩
    have hfill : c.tree.fill d = c.tree.fill d' := by
      refine Tree.fill_congr fun i hi => ?_
      obtain ⟨u, hu⟩ := hd i (hc i hi)
      exact ⟨u, hu, (hsame i (hc i hi)).trans hu⟩
    rw [IsFilledAt, hkeep base (by omega), hnew, hfill]

/-- **There is a table** for captures that need those before them only. -/
theorem exists_table {flat : List FlatCapture} (h : AtPositions NeedsEarlier 0 flat) :
    ∃ d, AtPositions (IsFilledAt d) 0 flat := by
  obtain ⟨d, -, hd⟩ := exists_continuation flat 0 (fun _ => none) (fun k hk => by omega) h
  exact ⟨d, hd⟩

/-! ## 4. Inlining -/

namespace Tree

/-- The name and the right-hand side of a value definition. -/
def definition? (t : Tree) : Option (Name × Tree) :=
  match t.shape with
  | .valueDef d => d.init.map (d.name, ·)
  | _ => none

/-- The definitions in a block that has no other statements, and its result. -/
def definitions? (t : Tree) : Option (List (Name × Tree) × Tree) :=
  match t.shape with
  | .block stats result => (stats.mapM definition?).map (·, result)
  | _ => none

/-- Inlines definitions from first to last, each with the right-hand sides before it already in
place, and then into the result. -/
def inline (result : Tree) (env : Name → Option Tree) : List (Name × Tree) → Tree
  | [] => result.substitute env
  | (n, init) :: definitions =>
    inline result (fun m => if m = n then some (init.substitute env) else env m) definitions

end Tree

/-- The definitions that a flattened value is emitted as. -/
def Flattened.definitions (f : Flattened) (names : List Name) : List (Name × Tree) :=
  f.captures.zipWith (fun c n => (n, c.tree.bindTags names)) names

/-- **Inlining builds the table.**  `done` are the names that are inlined already. -/
theorem inline_definitions {d : Nat → Option Tree} {expr : Tree} {names : List Name}
    (hnodup : names.Nodup) (hexpr : ∀ i ∈ expr.tags, i < names.length)
    (hexprRefs : ∀ n ∈ expr.references, n ∉ names) :
    ∀ (cs : List FlatCapture) (done rest : List Name) (env : Name → Option Tree),
      done ++ rest = names → rest.length = cs.length →
      AtPositions NeedsEarlier done.length cs → AtPositions (IsFilledAt d) done.length cs →
      (∀ c ∈ cs, ∀ n ∈ c.tree.references, n ∉ names) →
      (∀ i n, done[i]? = some n → ∃ u, env n = some u ∧ d i = some u) →
      (∀ n ∉ done, env n = none) →
      Tree.inline (expr.bindTags names) env
        (cs.zipWith (fun c n => (n, c.tree.bindTags names)) rest) = expr.fill d
  | [], done, rest, env, hnames, hlen, _, _, _, hdone, hnone => by
    obtain rfl : rest = [] := List.length_eq_zero_iff.mp hlen
    rw [List.append_nil] at hnames
    subst hnames
    refine Tree.substitute_bindTags (fun i hi => ?_) fun n hn => hnone n (hexprRefs n hn)
    have hget := List.getElem?_eq_getElem (hexpr i hi)
    obtain ⟨u, hu, hd⟩ := hdone i _ hget
    exact ⟨_, u, hget, hu, hd⟩
  | c :: cs, done, n :: rest, env, hnames, hlen, hneeds, hfilled, hrefs, hdone, hnone => by
    obtain ⟨hc, hneeds⟩ := AtPositions.cons_iff.mp hneeds
    obtain ⟨hdc, hfilled⟩ := AtPositions.cons_iff.mp hfilled
    have hn : n ∉ done := by
      intro hmem
      rw [← hnames, List.nodup_append] at hnodup
      exact hnodup.2.2 n hmem n List.mem_cons_self rfl
    -- the right-hand side comes to what the table has for it
    have hinit : (c.tree.bindTags names).substitute env = c.tree.fill d := by
      refine Tree.substitute_bindTags (fun i hi => ?_) fun m hm => hnone m fun hmem => ?_
      · have hget := List.getElem?_eq_getElem (hc i hi)
        obtain ⟨u, hu, hd⟩ := hdone i _ hget
        refine ⟨_, u, ?_, hu, hd⟩
        rw [← hnames, List.getElem?_append_left (hc i hi), hget]
      · exact hrefs c List.mem_cons_self m hm (hnames ▸ List.mem_append_left _ hmem)
    have hlen' : (done ++ [n]).length = done.length + 1 := by
      rw [List.length_append, List.length_singleton]
    rw [List.zipWith_cons_cons, Tree.inline, hinit]
    refine inline_definitions hnodup hexpr hexprRefs cs (done ++ [n]) rest _ ?_ ?_ ?_ ?_ ?_ ?_ ?_
    · rw [List.append_assoc, List.singleton_append, hnames]
    · exact Nat.succ.inj hlen
    · rwa [hlen']
    · rwa [hlen']
    · exact fun c' hc' => hrefs c' (List.mem_cons_of_mem _ hc')
    · intro i m hm
      rcases Nat.lt_trichotomy i done.length with hi | rfl | hi
      · rw [List.getElem?_append_left hi] at hm
        have hne : m ≠ n := fun h => hn (h ▸ List.mem_of_getElem? hm)
        rw [if_neg hne]
        exact hdone i m hm
      · rw [List.getElem?_append_right (Nat.le_refl _), Nat.sub_self] at hm
        cases hm
        exact ⟨_, if_pos rfl, hdc⟩
      · rw [List.getElem?_eq_none (by omega)] at hm
        contradiction
    · intro m hm
      rw [List.mem_append, List.mem_singleton, not_or] at hm
      rw [if_neg hm.2]
      exact hnone m hm.1

/-! ## 5. The emitted block -/

/-- The position of a capture can be read off its name. -/
theorem captureNameText_injective {j k : Nat} (h : captureNameText j = captureNameText k) :
    j = k :=
  toString_nat_inj ((String.append_right_inj _).mp h)

/-- The names of `count` captures, and the interner that knows them. -/
def captureNames (count : Nat) (i : Interner) : List Name × Interner :=
  ((List.range count).mapM captureName).run i

section

variable (count : Nat) (i : Interner)

theorem length_captureNames : (captureNames count i).1.length = count :=
  (length_run_mapM captureName _ i).trans List.length_range

theorem lookup?_getElem_captureNames {k : Nat} {n : Name}
    (h : (captureNames count i).1[k]? = some n) :
    (captureNames count i).2.lookup? n = some (captureNameText k) := by
  have hlookup := congrArg (·[k]?) (lookup?_run_mapM_intern captureNameText (List.range count) i)
  have hk : k < count := by
    rw [← length_captureNames count i]
    exact (List.getElem?_eq_some_iff.mp h).1
  have hnames : ((captureNames count i).1.map (captureNames count i).2.lookup?)[k]? =
      some ((captureNames count i).2.lookup? n) := by
    rw [List.getElem?_map, h, Option.map_some]
  have htexts : ((List.range count).map fun k => some (captureNameText k))[k]? =
      some (some (captureNameText k)) := by
    rw [List.getElem?_map, List.getElem?_range hk, Option.map_some]
  exact Option.some.inj (hnames.symm.trans (hlookup.trans htexts))

/-- The names of the captures are distinct, whatever the interner held before. -/
theorem nodup_captureNames : (captureNames count i).1.Nodup := by
  refine List.pairwise_iff_getElem.mpr fun j k hj hk hjk heq => ?_
  have htextj := lookup?_getElem_captureNames count i (List.getElem?_eq_getElem hj)
  have htextk := lookup?_getElem_captureNames count i (List.getElem?_eq_getElem hk)
  rw [heq, htextk, Option.some.injEq] at htextj
  have := captureNameText_injective htextj
  omega

end

namespace Flattened

theorem run_emit_of_nil {f : Flattened} (h : f.captures = []) (i : Interner) :
    f.emit.run i = (f.expr, i) := by
  rw [emit, h]
  rfl

theorem run_emit_of_ne_nil {f : Flattened} (h : f.captures ≠ []) (i : Interner) :
    f.emit.run i =
      (f.emitWith (captureNames f.captures.length i).1, (captureNames f.captures.length i).2) := by
  have hfalse : f.captures.isEmpty = false := by
    cases hc : f.captures with
    | nil => exact absurd hc h
    | cons c cs => rfl
  rw [emit, hfalse]
  rfl

/-- What is emitted is a block: its definitions and its result can be read back. -/
theorem definitions?_emitWith (f : Flattened) (names : List Name) :
    (f.emitWith names).definitions? = some (f.definitions names, f.expr.bindTags names) := by
  have hstats : ∀ (cs : List FlatCapture) (rest : List Name),
      (cs.zipWith (binding names) rest).mapM Tree.definition? =
        some (cs.zipWith (fun c n => (n, c.tree.bindTags names)) rest) := by
    intro cs rest
    induction cs generalizing rest with
    | nil => rfl
    | cons c cs ih =>
      cases rest with
      | nil => rfl
      | cons n rest =>
        rw [List.zipWith_cons_cons, List.mapM_cons, ih rest]
        rfl
  have hshape : (f.emitWith names).definitions? =
      ((f.captures.zipWith (binding names) names).mapM Tree.definition?).map
        (·, f.expr.bindTags names) := rfl
  rw [hshape, hstats]
  rfl

/-- Only the declared types of the captures can have tags in an emitted block. -/
theorem tags_emitWith {f : Flattened} {names : List Name} (hlen : names.length = f.captures.length)
    (hcaptures : ∀ c ∈ f.captures, (c.tree.bindTags names).tags = [])
    (hexpr : (f.expr.bindTags names).tags = []) :
    (f.emitWith names).tags = f.captures.flatMap fun c => c.tpe.tags := by
  have hstats : ∀ (cs : List FlatCapture) (rest : List Name), rest.length = cs.length →
      (∀ c ∈ cs, (c.tree.bindTags names).tags = []) →
        (cs.zipWith (binding names) rest).flatMap Tree.tags = cs.flatMap fun c => c.tpe.tags := by
    intro cs
    induction cs with
    | nil => exact fun _ _ _ => rfl
    | cons c cs ih =>
      intro rest hrest hcs
      cases rest with
      | nil => contradiction
      | cons n rest =>
        have hc : (binding names c n).tags = c.tpe.tags := by
          rw [Tree.tags_eq]
          simp [binding, Tree.valueDef, Tree.ofShape, ValueDef.ofInit, Shape.children,
            ValueDef.children, hcs c List.mem_cons_self]
        rw [List.zipWith_cons_cons, List.flatMap_cons, List.flatMap_cons, hc,
          ih rest (Nat.succ.inj hrest) fun c' hc' => hcs c' (List.mem_cons_of_mem _ hc')]
  rw [Tree.tags_eq]
  simp only [emitWith, Tree.block, Tree.ofShape, Shape.children, List.flatMap_append,
    List.flatMap_cons, List.flatMap_nil, hexpr, List.append_nil]
  exact hstats f.captures names hlen hcaptures

end Flattened

/-! ## 6. The main statement -/

/-- Definitions and a result that come to `value` when they are inlined. -/
structure Inlines (definitions : List (Name × Tree)) (result value : Tree) : Prop where
  inline_eq : Tree.inline result (fun _ => none) definitions = value
  nodup : (definitions.map Prod.fst).Nodup
  /-- No right-hand side refers to its own definition or to a later one. -/
  backward : ∀ j k (hj : j < definitions.length) (hk : k < definitions.length), j ≤ k →
    definitions[k].1 ∉ definitions[j].2.references
  untagged : ∀ p ∈ definitions, p.2.tags = []
  result_untagged : result.tags = []

/-- No tag is left in a capture once the names stand for the positions. -/
theorem tags_bindTags_of_needs {f : Flattened} {names : List Name}
    (hneeds : AtPositions NeedsEarlier 0 f.captures) (hlen : names.length = f.captures.length) :
    ∀ c ∈ f.captures, (c.tree.bindTags names).tags = [] := by
  intro c hc
  obtain ⟨k, hk, rfl⟩ := List.mem_iff_getElem.mp hc
  refine Tree.tags_bindTags fun i hi => ?_
  have := hneeds k _ (List.getElem?_eq_getElem hk) i hi
  omega

theorem inlines_definitions {f : Flattened} {names : List Name} {d : Nat → Option Tree}
    (hneeds : AtPositions NeedsEarlier 0 f.captures) (hexpr : ∀ i ∈ f.expr.tags, i < names.length)
    (hd : AtPositions (IsFilledAt d) 0 f.captures) (hnodup : names.Nodup)
    (hlen : names.length = f.captures.length)
    (hrefs : ∀ t ∈ f.expr :: f.captures.map FlatCapture.tree, ∀ n ∈ t.references, n ∉ names) :
    Inlines (f.definitions names) (f.expr.bindTags names) (f.expr.fill d) where
  inline_eq :=
    inline_definitions hnodup hexpr (hrefs f.expr List.mem_cons_self) f.captures [] names _ rfl hlen
      hneeds hd
      (fun c hc => hrefs c.tree (List.mem_cons_of_mem _ (List.mem_map_of_mem hc)))
      (fun i n h => by simp at h) fun _ _ => rfl
  nodup := by
    have hfst : (f.definitions names).map Prod.fst = names := by
      refine List.ext_getElem (by simp [Flattened.definitions, hlen]) fun k h h' => ?_
      simp [Flattened.definitions]
    rwa [hfst]
  backward j k hj hk hjk := by
    simp only [Flattened.definitions, List.length_zipWith] at hj hk
    simp only [Flattened.definitions, List.getElem_zipWith]
    have hjf : j < f.captures.length := by omega
    have hcj : f.captures[j]? = some f.captures[j] := List.getElem?_eq_getElem hjf
    have hneedsj := hneeds j _ hcj
    intro hmem
    have htags : ∀ i ∈ f.captures[j].tree.tags, i < names.length := fun i hi => by
      have := hneedsj i hi
      omega
    rcases Tree.mem_references_bindTags htags _ hmem with hold | ⟨i, hi, hin⟩
    · have hc := List.mem_cons_of_mem f.expr (List.mem_map_of_mem (f := FlatCapture.tree)
        (List.mem_of_getElem? hcj))
      exact hrefs _ hc _ hold (List.getElem_mem _)
    · -- the name of a later definition belongs to no earlier position
      obtain ⟨hlt, heq⟩ := List.getElem?_eq_some_iff.mp hin
      have hik : i = k := (List.getElem_inj hnodup).mp heq
      have := hneedsj i hi
      omega
  untagged p hp := by
    obtain ⟨k, hk, rfl⟩ := List.mem_iff_getElem.mp hp
    simp only [Flattened.definitions, List.length_zipWith] at hk
    simp only [Flattened.definitions, List.getElem_zipWith]
    exact tags_bindTags_of_needs hneeds hlen _ (List.getElem_mem _)
  result_untagged := Tree.tags_bindTags hexpr

/-- The tree `emitted` for the flattened value `flat` comes to `value`. -/
structure ComesTo (flat : Flattened) (emitted value : Tree) : Prop where
  /-- Without captures there is nothing to inline. -/
  of_nil : flat.captures = [] → emitted = value
  of_ne_nil : flat.captures ≠ [] → ∃ definitions result,
    emitted.definitions? = some (definitions, result) ∧
      definitions.length = flat.captures.length ∧ Inlines definitions result value
  /-- No tag is left but in the declared types of the captures. -/
  tags : emitted.tags = flat.captures.flatMap fun c => c.tpe.tags

/-- **An emitted value comes to what was reified.**  The trees of plain values must have no tags,
and no reference in the reified value may have the name of a capture. -/
theorem emit_comesTo_direct (lift : Lift V) (r : Reified V) (flat : Flattened) (i : Interner)
    (hflat : r.flatten lift = .ok flat) (hlift : ∀ t ∈ r.lifted lift, t.tags = [])
    (hnames : ∀ t ∈ r.exprs ++ r.lifted lift, ∀ n ∈ t.references, ∀ k < flat.captures.length,
      (flat.emit.run i).2.lookup? n ≠ some (captureNameText k)) :
    ∃ value, r.direct lift = some value ∧ ComesTo flat (flat.emit.run i).1 value := by
  have hspec := flattenAt_spec r hlift hflat
  obtain ⟨d, hd⟩ := exists_table hspec.needs
  by_cases hnil : flat.captures = []
  · have htags : flat.expr.tags = [] := by
      refine List.eq_nil_iff_forall_not_mem.mpr fun k hk => ?_
      have := hspec.expr_needs k hk
      rw [hnil] at this
      exact Nat.not_lt_zero _ this
    have hvalue := hspec.direct d hd
    rw [Tree.fill_of_tags_eq_nil htags] at hvalue
    rw [Flattened.run_emit_of_nil hnil]
    refine ⟨flat.expr, hvalue, fun _ => rfl, fun h => absurd hnil h, ?_⟩
    rw [htags, hnil]
    rfl
  · rw [Flattened.run_emit_of_ne_nil hnil] at hnames ⊢
    have hlen := length_captureNames flat.captures.length i
    have hexpr : ∀ k ∈ flat.expr.tags, k < (captureNames flat.captures.length i).1.length := by
      intro k hk
      have := hspec.expr_needs k hk
      omega
    have hrefs : ∀ t ∈ flat.expr :: flat.captures.map FlatCapture.tree, ∀ n ∈ t.references,
        n ∉ (captureNames flat.captures.length i).1 := by
      intro t ht n hn hmem
      obtain ⟨u, hu, hnu⟩ := hspec.references t ht n hn
      obtain ⟨k, hk, rfl⟩ := List.mem_iff_getElem.mp hmem
      exact hnames u hu _ hnu k (by omega)
        (lookup?_getElem_captureNames _ i (List.getElem?_eq_getElem hk))
    have hinlines := inlines_definitions hspec.needs hexpr hd (nodup_captureNames _ i) hlen hrefs
    have hdefinitions := flat.definitions?_emitWith (captureNames flat.captures.length i).1
    refine ⟨flat.expr.fill d, hspec.direct d hd, fun h => absurd h hnil,
      fun _ => ⟨_, _, hdefinitions, ?_, hinlines⟩, ?_⟩
    · rw [Flattened.definitions, List.length_zipWith, hlen, Nat.min_self]
    · exact Flattened.tags_emitWith hlen (tags_bindTags_of_needs hspec.needs hlen)
        hinlines.result_untagged

/-- Two captures, the first of them spliced and with a capture of its own. -/
theorem emit_comesTo_direct_nested :
    let lift : Lift Nat := fun n _ => some (.ofShape (.literal (.int n)) .nowhere)
    let tpe := Tree.typeIdent ⟨2⟩ .nowhere
    let expr (tags : List Tree) := Tree.apply (.ident ⟨1⟩ .nowhere) tags .nowhere
    let r : Reified Nat := .mk (expr [.splice (.tag 0 .nowhere) .nowhere, .tag 1 .nowhere])
      [.nested (.mk (expr [.tag 0 .nowhere]) [.leaf 7 tpe]) tpe, .leaf 8 tpe]
    ∃ flat value, r.flatten lift = .ok flat ∧ (∀ t ∈ r.lifted lift, t.tags = []) ∧
      (∀ t ∈ r.exprs ++ r.lifted lift, ∀ n ∈ t.references, ∀ k < flat.captures.length,
        (flat.emit.run .new).2.lookup? n ≠ some (captureNameText k)) ∧
      flat.captures.length = 3 ∧ r.direct lift = some value ∧
      ComesTo flat (flat.emit.run .new).1 value := by
  intro lift tpe expr r
  obtain ⟨flat, hflat, hlen⟩ : ∃ flat, r.flatten lift = .ok flat ∧ flat.captures.length = 3 :=
    ⟨_, rfl, rfl⟩
  have hlift : ∀ t ∈ r.lifted lift, t.tags = [] := by decide
  have hnames : ∀ t ∈ r.exprs ++ r.lifted lift, ∀ n ∈ t.references, ∀ k < flat.captures.length,
      (flat.emit.run .new).2.lookup? n ≠ some (captureNameText k) := by
    cases hflat
    decide
  obtain ⟨value, hvalue, hcomes⟩ := emit_comesTo_direct lift r flat .new hflat hlift hnames
  exact ⟨flat, value, hflat, hlift, hnames, hlen, hvalue, hcomes⟩

end Enrich
