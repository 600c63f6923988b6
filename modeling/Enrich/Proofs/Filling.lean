import Enrich.Reified.Emit
/-!
# Putting trees in the places of tags

Three passes treat a tag and the splice of a tag alike: binding puts a reference in its place,
filling puts a tree there, and renumbering leaves a tag there.  They agree on which subtrees these
are (`Tree.tagged?`), so they compose: references that are replaced by trees, and tags that are
renumbered and then filled, are filled in the first place.

* `Tree.substitute_bindTags`: binding, then replacing the references, is filling.
* `Tree.fill_retag`: renumbering, then filling, is filling.
* `Tree.tags_bindTags`, `Tree.references_bindTags`: binding leaves no tag and adds no reference but
  to what is bound.
-/

namespace Enrich

namespace Tree

/-! ## 1. Tagged places -/

/-- The number of a tag, whether it is spliced or not. -/
def tagged? (t : Tree) : Option Nat :=
  match t.shape with
  | .tag i => some i
  | .splice ⟨.tag i, _, _⟩ => some i
  | _ => none

/-- A tag counts with or without a splice around it. -/
theorem tagged?_eq_some_iff {t : Tree} {i : Nat} :
    t.tagged? = some i ↔
      t.shape = .tag i ∨ ∃ inner : Tree, t.shape = .splice inner ∧ inner.shape = .tag i := by
  obtain ⟨s, sp, ty⟩ := t
  unfold tagged?
  constructor
  · intro h
    split at h
    · rename_i j hs
      cases h
      exact .inl hs
    · rename_i j sp' ty' hs
      cases h
      exact .inr ⟨_, hs, rfl⟩
    · contradiction
  · rintro (h | ⟨⟨s', sp', ty'⟩, h, h'⟩)
    · simp only at h
      rw [h]
    · simp only at h h'
      rw [h, h']

/-- A place that is not tagged is no tag, and no splice of one. -/
theorem tagged?_eq_none_iff {t : Tree} :
    t.tagged? = none ↔ (∀ i, t.shape ≠ .tag i) ∧
      ∀ inner : Tree, t.shape = .splice inner → ∀ i, inner.shape ≠ .tag i := by
  rw [Option.eq_none_iff_forall_ne_some]
  constructor
  · intro h
    refine ⟨fun i hi => h i (tagged?_eq_some_iff.mpr (.inl hi)), fun inner hs i hi => ?_⟩
    exact h i (tagged?_eq_some_iff.mpr (.inr ⟨inner, hs, hi⟩))
  · intro h i hi
    rcases tagged?_eq_some_iff.mp hi with hs | ⟨inner, hs, hs'⟩
    · exact h.1 i hs
    · exact h.2 inner hs i hs'

theorem tags_of_tagged {t : Tree} {i : Nat} (h : t.tagged? = some i) : t.tags = [i] := by
  rcases tagged?_eq_some_iff.mp h with hs | ⟨inner, hs, hs'⟩
  · rw [tags_eq, hs]
  · rw [tags_eq, hs]
    simp only [Shape.children, List.flatMap_cons, List.flatMap_nil, List.append_nil]
    rw [tags_eq, hs']

/-- A tree that is no tag has the tags of the code in it. -/
theorem tags_of_untagged {t : Tree} (h : t.tagged? = none) :
    t.tags = t.shape.children.flatMap tags := by
  rw [tags_eq]
  split
  · rename_i i hs
    exact absurd hs ((tagged?_eq_none_iff.mp h).1 i)
  · rfl

theorem mem_tags_of_tagged {t : Tree} {i : Nat} (h : t.tagged? = some i) : i ∈ t.tags := by
  rw [tags_of_tagged h]
  exact List.mem_singleton_self i

theorem mem_tags_of_child {t c : Tree} {i : Nat} (h : t.tagged? = none)
    (hc : c ∈ t.shape.children) (hi : i ∈ c.tags) : i ∈ t.tags := by
  rw [tags_of_untagged h]
  exact List.mem_flatMap.mpr ⟨c, hc, hi⟩

theorem tags_map {t : Tree} (h : ∀ i, t.shape ≠ .tag i) (f : Tree → Tree) :
    (⟨t.shape.map f, t.span, t.ty⟩ : Tree).tags = t.shape.children.flatMap fun c => (f c).tags := by
  rw [tags_eq]
  split
  · rename_i i hi
    cases hs : t.shape <;> simp_all [Shape.map, Shape.bimap]
  · simp only [Shape.map, Shape.children_bimap, List.flatMap_map]

/-! ## 2. Filling -/

/-- What `d` has for a tagged place. -/
def filled? (d : Nat → Option Tree) (t : Tree) : Option Tree := t.tagged?.bind d

/-- Puts the trees that `d` has for them in the places of tags, spliced or not. -/
def fill (d : Nat → Option Tree) (t : Tree) : Tree := t.replace (filled? d)

section

variable {d d' : Nat → Option Tree} {t u : Tree} {i : Nat}

theorem fill_of_tagged (h : t.tagged? = some i) (hd : d i = some u) : t.fill d = u :=
  replace_of_some (by rw [filled?, h, Option.bind_some, hd])

theorem fill_of_untagged (h : t.tagged? = none) :
    t.fill d = ⟨t.shape.map (fill d), t.span, t.ty⟩ :=
  replace_of_none (by rw [filled?, h, Option.bind_none])

/-- Two fillings agree if they have the same for all tags of the tree. -/
theorem fill_congr (h : ∀ i ∈ t.tags, ∃ u, d i = some u ∧ d' i = some u) :
    t.fill d = t.fill d' := by
  induction t using induction with
  | step t _ ih =>
    cases ht : t.tagged? with
    | some i =>
      obtain ⟨u, hu, hu'⟩ := h i (mem_tags_of_tagged ht)
      rw [fill_of_tagged ht hu, fill_of_tagged ht hu']
    | none =>
      have hc : t.shape.map (fill d) = t.shape.map (fill d') :=
        Shape.bimap_congr (fun _ _ => rfl) fun c hc =>
          ih c hc fun i hi => h i (mem_tags_of_child ht hc hi)
      rw [fill_of_untagged ht, fill_of_untagged ht, hc]

/-- Where there is no tag, nothing is put. -/
theorem fill_of_tags_eq_nil (h : t.tags = []) : t.fill d = t := by
  induction t using induction with
  | step t _ ih =>
    cases ht : t.tagged? with
    | some i => simp [tags_of_tagged ht] at h
    | none =>
      rw [tags_of_untagged ht, List.flatMap_eq_nil_iff] at h
      have hc : t.shape.map (fill d) = t.shape.bimap id id :=
        Shape.bimap_congr (fun _ _ => rfl) fun c hc => ih c hc (h c hc)
      rw [fill_of_untagged ht, hc, Shape.bimap_id, eta]

end

/-! ## 3. References -/

/-- The name of a reference to a value. -/
def reference? (t : Tree) : Option Name :=
  match t.shape with
  | .ident n => some n
  | _ => none

/-- A reference is told by the layer alone. -/
theorem reference?_map (f : Tree → Tree) (t : Tree) :
    (⟨t.shape.map f, t.span, t.ty⟩ : Tree).reference? = t.reference? := by
  unfold reference?
  cases t.shape <;> rfl

/-- The names of the references to values in the code of a tree. -/
def references : Tree → List Name := fold fun t s =>
  t.reference?.toList ++ s.children.flatMap Prod.snd

theorem references_eq (t : Tree) :
    t.references = t.reference?.toList ++ t.shape.children.flatMap references := by
  rw [references, fold_eq]
  simp only [Shape.map, Shape.children_bimap, List.flatMap_map]

theorem mem_references_iff {t : Tree} {n : Name} :
    n ∈ t.references ↔ t.reference? = some n ∨ ∃ c ∈ t.shape.children, n ∈ c.references := by
  rw [references_eq, List.mem_append, Option.mem_toList, List.mem_flatMap]

theorem mem_references_map {t : Tree} {f : Tree → Tree} {n : Name} :
    n ∈ (⟨t.shape.map f, t.span, t.ty⟩ : Tree).references ↔
      t.reference? = some n ∨ ∃ c ∈ t.shape.children, n ∈ (f c).references := by
  rw [mem_references_iff, reference?_map, Shape.map, Shape.children_bimap]
  constructor
  · rintro (h | ⟨u, hu, h⟩)
    · exact .inl h
    · obtain ⟨c, hc, rfl⟩ := List.mem_map.mp hu
      exact .inr ⟨c, hc, h⟩
  · rintro (h | ⟨c, hc, h⟩)
    · exact .inl h
    · exact .inr ⟨f c, List.mem_map_of_mem hc, h⟩

/-- What `env` has for a reference. -/
def substituted? (env : Name → Option Tree) (t : Tree) : Option Tree := t.reference?.bind env

/-- Puts the trees that `env` has for them in the places of references. -/
def substitute (env : Name → Option Tree) (t : Tree) : Tree := t.replace (substituted? env)

/-! ## 4. Renumbering -/

section

variable {positions : List Nat} {t : Tree} {i k : Nat}

theorem tagged?_retag_of_tagged (h : t.tagged? = some i) (hk : positions[i]? = some k) :
    (t.retag positions).tagged? = some k := by
  rw [tagged?_eq_some_iff]
  rcases tagged?_eq_some_iff.mp h with hs | ⟨inner, hs, hs'⟩
  · rw [retag_of_tag hs hk]
    exact .inl rfl
  · rw [retag_of_not_tag (by simp [hs]), hs]
    refine .inr ⟨inner.retag positions, rfl, ?_⟩
    rw [retag_of_tag hs' hk]
    rfl

theorem renumbered?_eq_some {u : Tree} (h : t.renumbered? positions = some u) :
    ∃ i k, t.shape = .tag i ∧ positions[i]? = some k ∧ u = tag k t.span := by
  unfold renumbered? at h
  split at h
  · rename_i i hs
    obtain ⟨k, hk, rfl⟩ := Option.map_eq_some_iff.mp h
    exact ⟨i, k, hs, hk, rfl⟩
  · contradiction

/-- Renumbering passes through everything that is no tag. -/
theorem retag_of_untagged (h : t.tagged? = none) :
    t.retag positions = ⟨t.shape.map (retag positions), t.span, t.ty⟩ :=
  retag_of_not_tag (tagged?_eq_none_iff.mp h).1

/-- Renumbering makes no tag. -/
theorem tagged?_retag_of_untagged (h : t.tagged? = none) : (t.retag positions).tagged? = none := by
  obtain ⟨htag, hsplice⟩ := tagged?_eq_none_iff.mp h
  rw [tagged?_eq_none_iff, retag_of_untagged h]
  constructor
  · intro j
    cases hs : t.shape <;> simp_all [Shape.map, Shape.bimap]
  · intro inner hinner j
    cases hs : t.shape with
    | splice inner' =>
      simp only [hs, Shape.map, Shape.bimap, Shape.splice.injEq] at hinner
      rw [← hinner, retag_of_not_tag (hsplice inner' hs)]
      have := hsplice inner' hs
      cases hs' : inner'.shape <;> simp_all [Shape.map, Shape.bimap]
    | _ => simp [hs, Shape.map, Shape.bimap] at hinner

/-- **Renumbering, then filling, is filling.** -/
theorem fill_retag {d : Nat → Option Tree}
    (h : ∀ i ∈ t.tags, ∃ k u, positions[i]? = some k ∧ d k = some u) :
    (t.retag positions).fill d = t.fill fun i => positions[i]?.bind d := by
  induction t using induction with
  | step t _ ih =>
    cases ht : t.tagged? with
    | some i =>
      obtain ⟨k, u, hk, hu⟩ := h i (mem_tags_of_tagged ht)
      rw [fill_of_tagged (tagged?_retag_of_tagged ht hk) hu]
      exact (fill_of_tagged ht (by rw [hk, Option.bind_some, hu])).symm
    | none =>
      have hc : t.shape.map (fill d ∘ retag positions) =
          t.shape.map (fill fun i => positions[i]?.bind d) :=
        Shape.bimap_congr (fun _ _ => rfl) fun c hc =>
          ih c hc fun i hi => h i (mem_tags_of_child ht hc hi)
      rw [fill_of_untagged (tagged?_retag_of_untagged ht), fill_of_untagged ht, ← hc,
        retag_of_untagged ht]
      simp only [Shape.map, Shape.bimap_bimap]
      rfl

/-- The tags after renumbering are the numbers that the list has for the tags before. -/
theorem mem_tags_retag (h : ∀ i ∈ t.tags, i < positions.length) :
    ∀ k ∈ (t.retag positions).tags, k ∈ positions := by
  induction t using induction with
  | step t _ ih =>
    intro k hk
    cases ht : t.tagged? with
    | some i =>
      have hi : i < positions.length :=
        h i (mem_tags_of_tagged ht)
      have hpos : positions[i]? = some positions[i] := List.getElem?_eq_getElem hi
      rw [tags_of_tagged (tagged?_retag_of_tagged ht hpos), List.mem_singleton] at hk
      exact hk ▸ List.getElem_mem hi
    | none =>
      rw [retag_of_untagged ht, tags_map (tagged?_eq_none_iff.mp ht).1, List.mem_flatMap] at hk
      obtain ⟨c, hc, hk⟩ := hk
      exact ih c hc (fun i hi => h i (mem_tags_of_child ht hc hi)) k hk

/-- Renumbering adds no reference. -/
theorem mem_references_retag : ∀ n ∈ (t.retag positions).references, n ∈ t.references := by
  induction t using induction with
  | step t _ ih =>
    intro n hn
    cases hr : t.renumbered? positions with
    | some u =>
      obtain ⟨i, k, -, -, rfl⟩ := renumbered?_eq_some hr
      rw [retag, replace_of_some hr, mem_references_iff] at hn
      simp [tag, ofShape, reference?, Shape.children] at hn
    | none =>
      rw [retag, replace_of_none hr, mem_references_map] at hn
      rcases hn with hs | ⟨c, hc, hn⟩
      · exact mem_references_iff.mpr (.inl hs)
      · exact mem_references_iff.mpr (.inr ⟨c, hc, ih c hc n hn⟩)

end

/-! ## 5. Binding -/

section

variable {names : List Name} {t : Tree} {i : Nat} {n : Name}

theorem boundTag?_of_tag (h : t.shape = .tag i) (hn : names[i]? = some n) :
    t.boundTag? names = some (ident n t.span) := by
  rw [boundTag?, h]
  simp only [hn, Option.map_some]

theorem boundTag?_of_not_tag (h : ∀ i, t.shape ≠ .tag i) : t.boundTag? names = none := by
  unfold boundTag?
  split
  · rename_i i hi
    exact absurd hi (h i)
  · rfl

theorem bindTags_of_tagged (h : t.tagged? = some i) (hn : names[i]? = some n) :
    ∃ sp, t.bindTags names = ident n sp := by
  rcases tagged?_eq_some_iff.mp h with hs | ⟨inner, hs, hs'⟩
  · exact ⟨t.span, replace_of_some (by simp only [bound?, hs, boundTag?_of_tag hs hn])⟩
  · exact ⟨inner.span, replace_of_some (by simp only [bound?, hs, boundTag?_of_tag hs' hn])⟩

theorem bindTags_of_untagged (h : t.tagged? = none) :
    t.bindTags names = ⟨t.shape.map (bindTags names), t.span, t.ty⟩ := by
  obtain ⟨htag, hsplice⟩ := tagged?_eq_none_iff.mp h
  refine replace_of_none ?_
  unfold bound?
  split
  · rename_i inner hs
    exact boundTag?_of_not_tag (hsplice inner hs)
  · exact boundTag?_of_not_tag htag

/-- Binding leaves no tag. -/
theorem tags_bindTags (h : ∀ i ∈ t.tags, i < names.length) : (t.bindTags names).tags = [] := by
  induction t using induction with
  | step t _ ih =>
    cases ht : t.tagged? with
    | some i =>
      have hlt : i < names.length := h i (mem_tags_of_tagged ht)
      have hi : names[i]? = some names[i] := List.getElem?_eq_getElem hlt
      obtain ⟨sp, hsp⟩ := bindTags_of_tagged ht hi
      rw [hsp, tags_eq]
      rfl
    | none =>
      rw [bindTags_of_untagged ht, tags_map (tagged?_eq_none_iff.mp ht).1, List.flatMap_eq_nil_iff]
      exact fun c hc => ih c hc fun i hi => h i (mem_tags_of_child ht hc hi)

/-- Binding adds no reference but to what is bound. -/
theorem mem_references_bindTags (h : ∀ i ∈ t.tags, i < names.length) :
    ∀ n ∈ (t.bindTags names).references,
      n ∈ t.references ∨ ∃ i ∈ t.tags, names[i]? = some n := by
  induction t using induction with
  | step t _ ih =>
    intro n hn
    cases ht : t.tagged? with
    | some i =>
      have hlt : i < names.length := h i (mem_tags_of_tagged ht)
      have hi : names[i]? = some names[i] := List.getElem?_eq_getElem hlt
      obtain ⟨sp, hsp⟩ := bindTags_of_tagged ht hi
      rw [hsp, mem_references_iff] at hn
      simp [ident, ofShape, reference?, Shape.children] at hn
      exact .inr ⟨i, mem_tags_of_tagged ht, by rw [hi, hn]⟩
    | none =>
      rw [bindTags_of_untagged ht, mem_references_map] at hn
      rcases hn with hs | ⟨c, hc, hn⟩
      · exact .inl (mem_references_iff.mpr (.inl hs))
      · rcases ih c hc (fun i hi => h i (mem_tags_of_child ht hc hi)) n hn with hr | ⟨i, hi, hin⟩
        · exact .inl (mem_references_iff.mpr (.inr ⟨c, hc, hr⟩))
        · exact .inr ⟨i, mem_tags_of_child ht hc hi, hin⟩

/-- **Binding, then putting trees in the places of the references, is filling.**  The tree itself
must not mention what is replaced. -/
theorem substitute_bindTags {env : Name → Option Tree} {d : Nat → Option Tree}
    (htags : ∀ i ∈ t.tags, ∃ n u, names[i]? = some n ∧ env n = some u ∧ d i = some u)
    (hrefs : ∀ n ∈ t.references, env n = none) :
    (t.bindTags names).substitute env = t.fill d := by
  induction t using induction with
  | step t _ ih =>
    cases ht : t.tagged? with
    | some i =>
      obtain ⟨n, u, hn, henv, hd⟩ := htags i (mem_tags_of_tagged ht)
      obtain ⟨sp, hsp⟩ := bindTags_of_tagged ht hn
      rw [fill_of_tagged ht hd, hsp]
      exact replace_of_some henv
    | none =>
      have hroot : substituted? env ⟨t.shape.map (bindTags names), t.span, t.ty⟩ = none := by
        rw [substituted?, reference?_map]
        cases hr : t.reference? with
        | none => rfl
        | some n => exact hrefs n (mem_references_iff.mpr (.inl hr))
      have hc : t.shape.map (substitute env ∘ bindTags names) = t.shape.map (fill d) :=
        Shape.bimap_congr (fun _ _ => rfl) fun c hc =>
          ih c hc (fun i hi => htags i (mem_tags_of_child ht hc hi)) fun n hn =>
            hrefs n (mem_references_iff.mpr (.inr ⟨c, hc, hn⟩))
      rw [bindTags_of_untagged ht, fill_of_untagged ht, ← hc, substitute, replace_of_none hroot]
      simp only [Shape.map, Shape.bimap_bimap]
      rfl

end

end Tree

end Enrich
