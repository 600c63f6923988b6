import Enrich.Tree.Build
/-!
# The sites of a tree

Whoever reads a tree from its root on enters trees, value definitions and methods: a parameter is
entered as the value definition it is, and a definition that stands as a tree is entered after that
tree.  All of these are sites.  What is read right inside a site are its parts, and a site is read
by entering it and reading its parts one after the other (`Site.sites_eq`).  So every site of a tree
is listed once, in reading order.  Annotations are not read.

A site also has an *address*, which does not depend on any reading: the way to it from the site
where one starts, by the position of each part on the way.  The list is what stands at the addresses,
each address once and in lexicographic order.

* `Site.parts`: the sites right inside a site.
* `Tree.sites`: all sites of a tree.
* `Site.sites_eq`: the equation of the list.
* `Site.at?`: the site at an address.
* `Site.exists_isReading`: the list runs over the addresses.
-/

namespace Enrich

/-- What is entered when a tree is read. -/
inductive Site where
  | tree (t : Tree)
  /-- A value, a variable or a parameter. -/
  | value (d : ValueDef Tree Tree)
  | method (d : MethodDef Tree Tree)

/-- The sites right inside a site, in reading order. -/
def Site.parts : Site → List Site
  | .tree t =>
    match t.shape with
    | .lambda ps b => ps.map .value ++ [.tree b]
    | .valueDef d => [.value d]
    | .methodDef d => [.method d]
    | .classDef d => d.params.map .value ++ d.body.map .tree
    | s => s.children.map .tree
  | .value d => d.children.map .tree
  | .method d => d.params.map .value ++ (d.result.toList ++ [d.body]).map .tree

/-! ## 1. One layer -/

section

variable {β γ : Type} (source : β → Tree) (inside : β → List Site)

/-- The sites of a value definition; `source` tells the tree in a hole and `inside` its sites. -/
def ValueDef.sites (d : ValueDef Tree β) : List Site :=
  .value (d.bimap id source) :: d.children.flatMap inside

/-- The sites of a method. -/
def MethodDef.sites (d : MethodDef Tree β) : List Site :=
  .method (d.bimap id source) ::
    (d.params.flatMap (·.sites source inside) ++ (d.result.toList ++ [d.body]).flatMap inside)

/-- The sites in a layer, without the one of the layer itself. -/
def Shape.sites : Shape Tree β → List Site
  | .lambda ps b => ps.flatMap (·.sites source inside) ++ inside b
  | .valueDef d => d.sites source inside
  | .methodDef d => d.sites source inside
  | .classDef d => d.params.flatMap (·.sites source inside) ++ d.body.flatMap inside
  | s => s.children.flatMap inside

variable (source : γ → Tree) (inside : γ → List Site) (g : β → γ)

theorem ValueDef.sites_bimap (d : ValueDef Tree β) :
    (d.bimap id g).sites source inside = d.sites (source ∘ g) fun b => inside (g b) := by
  rw [sites, children_bimap, List.flatMap_map, bimap_bimap]
  rfl

theorem ValueDef.flatMap_sites_bimap (ps : List (ValueDef Tree β)) :
    (ps.map (·.bimap id g)).flatMap (·.sites source inside) =
      ps.flatMap (·.sites (source ∘ g) fun b => inside (g b)) := by
  simp only [List.flatMap_map, sites_bimap]

theorem MethodDef.sites_bimap (d : MethodDef Tree β) :
    (d.bimap id g).sites source inside = d.sites (source ∘ g) fun b => inside (g b) := by
  have hr : (d.bimap id g).result.toList ++ [(d.bimap id g).body] =
      (d.result.toList ++ [d.body]).map g := by
    rw [List.map_append]
    cases hres : d.result <;> simp [bimap, hres]
  rw [sites, params_bimap, ValueDef.flatMap_sites_bimap, hr, List.flatMap_map, bimap_bimap]
  rfl

/-- The sites of a filled layer, in terms of what it is filled with. -/
theorem Shape.sites_map (s : Shape Tree β) :
    (s.map g).sites source inside = s.sites (source ∘ g) fun b => inside (g b) := by
  cases s with
  | lambda ps b => simp only [map, bimap, sites, ValueDef.flatMap_sites_bimap]
  | valueDef d => exact ValueDef.sites_bimap source inside g d
  | methodDef d => exact MethodDef.sites_bimap source inside g d
  | classDef d =>
    simp only [map, bimap, ClassDef.bimap, sites, ValueDef.flatMap_sites_bimap]
    rw [List.flatMap_map]
  | objectDef d => exact List.flatMap_map g inside d.body
  | _ =>
    simp [map, bimap, sites, children, List.flatMap_map, Arm.children_map, List.flatMap_assoc]

end

/-! ## 2. All layers -/

/-- The sites of a tree, in the order in which they are entered. -/
def Tree.sites : Tree → List Site := fold fun t s => .tree t :: s.sites Prod.fst Prod.snd

/-- The equation of the sites of a tree: the tree itself comes first. -/
theorem Tree.sites_eq (t : Tree) : t.sites = .tree t :: t.shape.sites id sites := by
  rw [sites, fold_eq, Shape.sites_map]
  rfl

namespace Site

/-- A site and all sites inside it, in the order in which they are entered. -/
def sites : Site → List Site
  | .tree t => t.sites
  | .value d => d.sites id Tree.sites
  | .method d => d.sites id Tree.sites

theorem flatMap_value_sites (ps : List (ValueDef Tree Tree)) :
    (ps.map value).flatMap sites = ps.flatMap (·.sites id Tree.sites) := by
  rw [List.flatMap_map]
  rfl

theorem flatMap_tree_sites (ts : List Tree) :
    (ts.map tree).flatMap sites = ts.flatMap Tree.sites := by
  rw [List.flatMap_map]
  rfl

/-- **A site is entered first, and then its parts are read**, one after the other. -/
theorem sites_eq (s : Site) : s.sites = s :: s.parts.flatMap sites := by
  cases s with
  | tree t =>
    rw [sites, Tree.sites_eq, parts]
    cases t.shape <;>
      simp only [Shape.sites, List.flatMap_append, flatMap_value_sites, flatMap_tree_sites,
        List.flatMap_cons, List.flatMap_nil, List.append_nil, sites]
  | value d => rw [sites, ValueDef.sites, parts, flatMap_tree_sites, ValueDef.bimap_id]
  | method d =>
    have hrest := flatMap_tree_sites (d.result.toList ++ [d.body])
    rw [parts, List.flatMap_append, flatMap_value_sites, hrest, sites, MethodDef.sites,
      MethodDef.bimap_id]

/-! ## 3. Every site once -/

/-- What holds of a site whenever it holds of its parts holds of every site. -/
theorem induction {P : Site → Prop} (step : ∀ s : Site, (∀ p ∈ s.parts, P p) → P s) :
    ∀ s : Site, P s := by
  have hvalue : ∀ d : ValueDef Tree Tree, (∀ c ∈ d.children, P (.tree c)) → P (.value d) :=
    fun d h => step _ (List.forall_mem_map.mpr h)
  have hvalues : ∀ ps : List (ValueDef Tree Tree),
      (∀ c ∈ ps.flatMap ValueDef.children, P (.tree c)) → ∀ p ∈ ps.map Site.value, P p :=
    fun ps h => List.forall_mem_map.mpr fun d hd =>
      hvalue d fun c hc => h c (List.mem_flatMap.mpr ⟨d, hd, hc⟩)
  have hmethod : ∀ d : MethodDef Tree Tree, (∀ c ∈ d.children, P (.tree c)) → P (.method d) := by
    intro d h
    rw [MethodDef.children, List.forall_mem_append] at h
    exact step _ (List.forall_mem_append.mpr
      ⟨hvalues _ h.1, List.forall_mem_map.mpr h.2⟩)
  have htree : ∀ t : Tree, P (.tree t) := by
    intro t
    induction t using Tree.induction with
    | step t _ ih =>
      refine step _ ?_
      obtain ⟨s, sp, ty⟩ := t
      cases s with
      | lambda ps b =>
        rw [Shape.children, List.forall_mem_append] at ih
        exact List.forall_mem_append.mpr ⟨hvalues _ ih.1, List.forall_mem_map.mpr ih.2⟩
      | valueDef d => exact List.forall_mem_singleton.mpr (hvalue d ih)
      | methodDef d => exact List.forall_mem_singleton.mpr (hmethod d ih)
      | classDef d =>
        rw [Shape.children, ClassDef.children, List.forall_mem_append] at ih
        exact List.forall_mem_append.mpr ⟨hvalues _ ih.1, List.forall_mem_map.mpr ih.2⟩
      | _ => exact List.forall_mem_map.mpr ih
  intro s
  cases s with
  | tree t => exact htree t
  | value d => exact hvalue d fun c _ => htree c
  | method d => exact hmethod d fun c _ => htree c

/-- The site at an address: the way to it, by the position of each part on the way. -/
def at? : Site → List Nat → Option Site
  | s, [] => some s
  | s, i :: address => s.parts[i]? >>= (at? · address)

/-- Every address in a site stands in the reading with the site at it, and the addresses stand in
lexicographic order, so that none of them is there twice. -/
structure IsReading (s : Site) (reading : List (List Nat × Site)) : Prop where
  mem_iff : ∀ address u, (address, u) ∈ reading ↔ s.at? address = some u
  sorted : (reading.map Prod.fst).Pairwise (· < ·)

/-- The same for the parts from position `k` on. -/
structure IsReadingFrom (k : Nat) (ps : List Site) (reading : List (List Nat × Site)) : Prop where
  mem_iff : ∀ address u, (address, u) ∈ reading ↔
    ∃ i rest, address = (k + i) :: rest ∧ (ps[i]? >>= (at? · rest)) = some u
  sorted : (reading.map Prod.fst).Pairwise (· < ·)

/-- The reading of a part comes before those of the parts after it. -/
theorem IsReadingFrom.cons {k : Nat} {p : Site} {ps : List Site}
    {first others : List (List Nat × Site)} (hfirst : p.IsReading first)
    (hothers : IsReadingFrom (k + 1) ps others) :
    IsReadingFrom k (p :: ps) (first.map (fun e => (k :: e.1, e.2)) ++ others) where
  mem_iff address u := by
    rw [List.mem_append, hothers.mem_iff]
    constructor
    · rintro (h | ⟨i, rest, rfl, hu⟩)
      · obtain ⟨⟨rest, v⟩, he, heq⟩ := List.mem_map.mp h
        cases heq
        exact ⟨0, rest, rfl, (hfirst.mem_iff rest v).mp he⟩
      · exact ⟨i + 1, rest, by rw [Nat.add_right_comm, Nat.add_assoc], hu⟩
    · rintro ⟨i, rest, rfl, hu⟩
      cases i with
      | zero => exact .inl (List.mem_map.mpr ⟨(rest, u), (hfirst.mem_iff rest u).mpr hu, rfl⟩)
      | succ i => exact .inr ⟨i, rest, by rw [Nat.add_right_comm, Nat.add_assoc], hu⟩
  sorted := by
    have hfsts : (first.map fun e => (k :: e.1, e.2)).map Prod.fst =
        (first.map Prod.fst).map (k :: ·) := by
      simp
    rw [List.map_append, hfsts, List.pairwise_append, List.pairwise_map]
    have hsorted := hfirst.sorted.imp fun h => List.cons_lt_cons_iff.mpr (.inr ⟨(rfl : k = k), h⟩)
    refine ⟨hsorted, hothers.sorted, fun a ha b hb => ?_⟩
    obtain ⟨rest, -, rfl⟩ := List.mem_map.mp ha
    obtain ⟨⟨_, u⟩, he, rfl⟩ := List.mem_map.mp hb
    obtain ⟨i, rest', rfl, -⟩ := (hothers.mem_iff _ u).mp he
    exact List.cons_lt_cons_iff.mpr (.inl (by omega))

/-- A site is read before its parts. -/
theorem IsReadingFrom.isReading {s : Site} {inside : List (List Nat × Site)}
    (h : IsReadingFrom 0 s.parts inside) : s.IsReading (([], s) :: inside) where
  mem_iff address u := by
    rw [List.mem_cons, h.mem_iff]
    cases address with
    | nil => simp [at?, eq_comm]
    | cons i rest =>
      constructor
      · rintro (h | ⟨j, rest', h, hu⟩)
        · cases h
        · rw [Nat.zero_add] at h
          cases h
          exact hu
      · exact fun hu => .inr ⟨i, rest, by rw [Nat.zero_add], hu⟩
  sorted := by
    rw [List.map_cons, List.pairwise_cons]
    refine ⟨fun a ha => ?_, h.sorted⟩
    obtain ⟨⟨_, u⟩, he, rfl⟩ := List.mem_map.mp ha
    obtain ⟨i, rest, rfl, -⟩ := (h.mem_iff _ u).mp he
    exact List.nil_lt_cons _ _

theorem exists_isReadingFrom : ∀ (ps : List Site) (k : Nat),
    (∀ p ∈ ps, ∃ reading, p.IsReading reading ∧ reading.map Prod.snd = p.sites) →
    ∃ reading, IsReadingFrom k ps reading ∧ reading.map Prod.snd = ps.flatMap sites
  | [], _, _ => ⟨[], ⟨by simp, by simp⟩, rfl⟩
  | p :: ps, k, h => by
    rw [List.forall_mem_cons] at h
    obtain ⟨⟨first, hfirst, hsites⟩, hps⟩ := h
    obtain ⟨others, hothers, hrest⟩ := exists_isReadingFrom ps (k + 1) hps
    refine ⟨_, .cons hfirst hothers, ?_⟩
    rw [List.map_append, List.map_map, hrest, List.flatMap_cons, ← hsites]
    rfl

/-- **Every site is read once, in the order of the addresses.** -/
theorem exists_isReading (s : Site) :
    ∃ reading, s.IsReading reading ∧ reading.map Prod.snd = s.sites := by
  induction s using induction with
  | step s ih =>
    obtain ⟨inside, hinside, hsites⟩ := exists_isReadingFrom s.parts 0 ih
    refine ⟨([], s) :: inside, hinside.isReading, ?_⟩
    rw [List.map_cons, hsites, sites_eq]

end Site

end Enrich
