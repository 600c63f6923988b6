import Enrich.Proofs.Unwritten
import Enrich.Tree.Nodes
/-!
# Trees are written on one line

A tree is written from pieces, and line breaks can come in with the text of a name only.  The fixed
text of the layout has none, nor have numbers, and quoting takes them away.  So two things are to be
known of a tree: that a name is written as it is only where it stands for itself, and that the text
of a string constant is written in quotes wherever there is one, in annotations, arms and parameters
too (`Tree.isFrom_of_mem_pieces`).

One layer is read with the pieces of the trees in it, so what holds of those pieces, of the names in
the layer and of fixed text without line breaks holds of all pieces of the layer
(`Layout.forall_layer`); there is one such fact for each part of the layout.

* `Tree.isOneLine_print_iff`: when a tree is written on one line.
* `Tree.print_isOneLine`: the main statement.
-/

namespace Enrich

/-! ## 1. Text on one line -/

namespace Text

/-- There is no line break in the text. -/
def IsOneLine (s : String) : Prop := ∀ c ∈ s.toList, IsInline c

-- the characters of the text are gone through, not all the characters there are
instance (s : String) : Decidable (IsOneLine s) := s.toList.decidableBAll IsInline

theorem IsOneLine.append {s s' : String} (h : IsOneLine s) (h' : IsOneLine s') :
    IsOneLine (s ++ s') := by
  intro c hc
  rw [String.toList_append] at hc
  exact (List.mem_append.mp hc).elim (h c) (h' c)

/-- Joined texts are on one line exactly when each of them is. -/
theorem isOneLine_join {texts : List String} :
    IsOneLine (String.join texts) ↔ ∀ s ∈ texts, IsOneLine s := by
  simp only [IsOneLine, String.toList_join, List.mem_flatMap]
  exact ⟨fun h s hs c hc => h c ⟨s, hs, hc⟩, fun h c ⟨s, hs, hc⟩ => h s hs c hc⟩

/-- Numbers are written in digits. -/
theorem isOneLine_nat (n : Nat) : IsOneLine (toString n) := by
  intro c hc
  have hdigits : (toString n).toList = Nat.toDigits 10 n := String.toList_ofList
  rw [hdigits] at hc
  exact isInline_toDigitsCore 10 _ n [] (by simp) c hc

theorem isOneLine_int : ∀ v : Int, IsOneLine (toString v)
  | .ofNat n => isOneLine_nat n
  | .negSucc n => IsOneLine.append (s := "-") (by decide) (isOneLine_nat (n + 1))

/-- **Quoted text is on one line**, whatever is quoted. -/
theorem isOneLine_quote (s : String) : IsOneLine (quote s) := by
  intro c hc
  simp only [quote, String.toList_ofList, List.mem_cons, List.mem_append, List.mem_flatMap,
    List.not_mem_nil, or_false] at hc
  rcases hc with rfl | ⟨d, -, hd⟩ | rfl
  · decide
  · exact quoteChar_no_break d c hd
  · decide

end Text

open Text (IsOneLine)

/-! ## 2. Pieces of one layer -/

section

variable {α β : Type}

/-- The names in a layer that stand for themselves. -/
def Shape.spelledNames : Shape α β → List Name
  | .literal _ => []
  | s => s.names

/-- The names in a layer whose text is a string constant. -/
def Shape.constantNames : Shape α β → List Name
  | .literal v => v.names
  | _ => []

/-- The names that are spelled out stand in the layer, not in its holes. -/
theorem Shape.spelledNames_bimap {γ δ : Type} (f : α → γ) (g : β → δ) (s : Shape α β) :
    (s.bimap f g).spelledNames = s.spelledNames := by
  have hnames := s.names_bimap f g
  cases s with
  | literal v => rfl
  | _ => exact hnames

theorem Shape.constantNames_bimap {γ δ : Type} (f : α → γ) (g : β → δ) (s : Shape α β) :
    (s.bimap f g).constantNames = s.constantNames := by
  cases s <;> rfl

end

namespace Layout

section

variable {P : Piece → Prop} (htext : ∀ s : String, IsOneLine s → P (.text s))
include htext

/-- What holds of every piece of a list and of the comma holds of the list with commas. -/
theorem forall_commas : ∀ {xs : List (List Piece)}, (∀ x ∈ xs, ∀ p ∈ x, P p) →
    ∀ p ∈ commas xs, P p
  | [], _ => by simp [commas]
  | [x], h => by simpa [commas] using h
  | x :: y :: xs, h => by
    obtain ⟨hx, hrest⟩ := List.forall_mem_cons.mp h
    have hcommas := forall_commas hrest
    simp only [commas, List.intercalate_cons_cons, List.forall_mem_append, List.forall_mem_singleton]
      at hcommas ⊢
    exact ⟨⟨hx, htext ", " (by decide)⟩, hcommas⟩

theorem forall_semicolons {xs : List (List Piece)} (h : ∀ x ∈ xs, ∀ p ∈ x, P p) :
    ∀ p ∈ semicolons xs, P p := by
  intro p hp
  obtain ⟨x, hx, hp⟩ := List.mem_flatMap.mp hp
  rcases List.mem_append.mp hp with hp | hp
  · exact h x hx p hp
  · exact List.mem_singleton.mp hp ▸ htext "; " (by decide)

/-- Between two fixed texts. -/
theorem forall_between {lead trail : String} {ps : List Piece} (hlead : IsOneLine lead)
    (hps : ∀ p ∈ ps, P p) (htrail : IsOneLine trail) :
    ∀ p ∈ .text lead :: (ps ++ [.text trail]), P p :=
  List.forall_mem_cons.mpr ⟨htext lead hlead, List.forall_mem_append.mpr
    ⟨hps, List.forall_mem_singleton.mpr (htext trail htrail)⟩⟩

theorem forall_round {xs : List (List Piece)} (h : ∀ x ∈ xs, ∀ p ∈ x, P p) :
    ∀ p ∈ round xs, P p :=
  forall_between htext (by decide) (forall_commas htext h) (by decide)

theorem forall_square {xs : List (List Piece)} (h : ∀ x ∈ xs, ∀ p ∈ x, P p) :
    ∀ p ∈ square xs, P p :=
  forall_between htext (by decide) (forall_commas htext h) (by decide)

theorem forall_after {lead : String} (hlead : IsOneLine lead) {o : Option Written}
    (h : ∀ t ∈ o.toList, ∀ p ∈ t.2, P p) : ∀ p ∈ after lead o, P p := by
  cases o with
  | none => simp [after]
  | some t => exact List.forall_mem_cons.mpr ⟨htext lead hlead, h t (by simp)⟩

theorem forall_annotated {a : Written} (h : ∀ p ∈ a.2, P p) : ∀ p ∈ annotated a, P p := by
  refine forall_between htext (by decide) ?_ (by decide)
  split
  · exact fun p hp => h p (List.mem_of_mem_drop hp)
  · exact h

theorem forall_flagWords (f : Flags) : ∀ p ∈ flagWords f, P p := by
  intro p hp
  obtain ⟨⟨isSet, word⟩, hmem, hp⟩ := List.mem_filterMap.mp hp
  have hword : IsOneLine word := by
    simp only [List.mem_cons, Prod.mk.injEq, List.not_mem_nil, or_false] at hmem
    rcases hmem with ⟨-, rfl⟩ | ⟨-, rfl⟩ | ⟨-, rfl⟩ | ⟨-, rfl⟩ <;> decide
  cases isSet with
  | false => contradiction
  | true => exact Option.some.inj hp ▸ htext word hword

theorem forall_modifiers {m : Modifiers Written} (h : ∀ a ∈ m.annotations, ∀ p ∈ a.2, P p) :
    ∀ p ∈ modifiers m, P p := by
  refine List.forall_mem_append.mpr ⟨fun p hp => ?_, forall_flagWords htext m.flags⟩
  obtain ⟨a, ha, hp⟩ := List.mem_flatMap.mp hp
  exact forall_annotated htext (h a ha) p hp

theorem forall_literal {v : Literal} (h : ∀ n ∈ v.names, P (.quoted n)) : ∀ p ∈ literal v, P p := by
  cases v with
  | int v => exact List.forall_mem_singleton.mpr (htext _ (Text.isOneLine_int v))
  | bool b => cases b <;> exact List.forall_mem_singleton.mpr (htext _ (by decide))
  | str n => exact List.forall_mem_singleton.mpr (h n (List.mem_singleton_self n))
  | unit => exact List.forall_mem_singleton.mpr (htext _ (by decide))

/-- A name with its type: the name is a piece of its own. -/
theorem forall_typed {n : Name} {tpe : Option Written} (hn : P (.name n))
    (h : ∀ t ∈ tpe.toList, ∀ p ∈ t.2, P p) : ∀ p ∈ typed n tpe, P p :=
  List.forall_mem_cons.mpr ⟨hn, forall_after htext (by decide) h⟩

theorem forall_typeParams {tps : List TypeParam} (h : ∀ n ∈ tps.map TypeParam.name, P (.name n)) :
    ∀ p ∈ typeParams tps, P p := by
  cases tps with
  | nil => simp [typeParams]
  | cons tp tps =>
    refine forall_square htext fun x hx => ?_
    obtain ⟨q, hq, rfl⟩ := List.mem_map.mp hx
    exact List.forall_mem_singleton.mpr (h q.name (List.mem_map_of_mem hq))

theorem forall_group {ps : List (ValueDef Written Written)}
    (hn : ∀ n ∈ ps.map ValueDef.name, P (.name n))
    (h : ∀ c ∈ ps.flatMap ValueDef.children, ∀ p ∈ c.2, P p) : ∀ p ∈ group ps, P p := by
  refine forall_between htext (by decide) (List.forall_mem_append.mpr ⟨?_, ?_⟩) (by decide)
  · split
    · exact List.forall_mem_singleton.mpr (htext _ (by decide))
    · simp
  · refine forall_commas htext fun x hx => ?_
    obtain ⟨d, hd, rfl⟩ := List.mem_map.mp hx
    refine forall_typed htext (hn d.name (List.mem_map_of_mem hd)) fun t ht => ?_
    exact h t (List.mem_flatMap.mpr ⟨d, hd, List.mem_append_left _ ht⟩)

/-- The pieces of a value definition come from its name, its annotations and its code. -/
theorem forall_valueDef {d : ValueDef Written Written} (hn : P (.name d.name))
    (ha : ∀ a ∈ d.mods.annotations, ∀ p ∈ a.2, P p) (h : ∀ c ∈ d.children, ∀ p ∈ c.2, P p) :
    ∀ p ∈ valueDef d, P p := by
  obtain ⟨htpe, hinit⟩ := List.forall_mem_append.mp h
  have htyped := forall_typed htext hn htpe
  unfold valueDef
  split
  · exact htyped
  · have hword : IsOneLine (if d.mods.flags.isMutable then "var " else "val ") := by
      split <;> decide
    simp only [List.forall_mem_append, List.forall_mem_singleton]
    exact ⟨⟨⟨forall_modifiers htext ha, htext _ hword⟩, htyped⟩,
      forall_after htext (by decide) hinit⟩

theorem forall_members {ts : List Written} (h : ∀ t ∈ ts, ∀ p ∈ t.2, P p) :
    ∀ p ∈ members ts, P p := by
  refine forall_between htext (by decide) (forall_semicolons htext fun x hx => ?_) (by decide)
  obtain ⟨t, ht, rfl⟩ := List.mem_map.mp hx
  exact h t ht

/-- The pieces of an arm come from its pattern, guard and body. -/
theorem forall_arm {a : Arm Written} (h : ∀ c ∈ a.children, ∀ p ∈ c.2, P p) :
    ∀ p ∈ arm a, P p := by
  obtain ⟨hpat, hrest⟩ := List.forall_mem_cons.mp h
  obtain ⟨hguard, hbody⟩ := List.forall_mem_append.mp hrest
  simp only [arm, List.forall_mem_cons, List.forall_mem_append]
  exact ⟨htext _ (by decide), ⟨hpat, forall_after htext (by decide) hguard⟩, htext _ (by decide),
    hbody a.body (List.mem_singleton_self _)⟩

/-- **One layer**: what holds of the pieces of what is in it, and of its names, holds of all its
pieces. -/
theorem forall_layer {s : Shape Written Written} (ha : ∀ a ∈ s.annotations, ∀ p ∈ a.2, P p)
    (hc : ∀ c ∈ s.children, ∀ p ∈ c.2, P p) (hspelled : ∀ n ∈ s.spelledNames, P (.name n))
    (hconstant : ∀ n ∈ s.constantNames, P (.quoted n)) : ∀ p ∈ layer s, P p := by
  have htrees : ∀ {ts : List Written}, (∀ t ∈ ts, ∀ p ∈ t.2, P p) →
      ∀ x ∈ ts.map Prod.snd, ∀ p ∈ x, P p := fun h x hx => by
    obtain ⟨t, ht, rfl⟩ := List.mem_map.mp hx
    exact h t ht
  cases s with
  | ident n | typeIdent n =>
    exact List.forall_mem_singleton.mpr (hspelled n (List.mem_singleton_self n))
  | literal v => exact forall_literal htext hconstant
  | wildcard => exact List.forall_mem_singleton.mpr (htext _ (by decide))
  | tag i =>
    exact forall_between htext (by decide)
      (List.forall_mem_singleton.mpr (htext _ (Text.isOneLine_nat i))) (by decide)
  | select t n =>
    have hn := hspelled n (List.mem_singleton_self n)
    exact List.forall_mem_append.mpr ⟨hc t (List.mem_singleton_self t),
      List.forall_mem_cons.mpr ⟨htext _ (by decide), List.forall_mem_singleton.mpr hn⟩⟩
  | apply t args =>
    obtain ⟨ht, hargs⟩ := List.forall_mem_cons.mp hc
    exact List.forall_mem_append.mpr ⟨ht, forall_round htext (htrees hargs)⟩
  | typeApply t args | appliedType t args =>
    obtain ⟨ht, hargs⟩ := List.forall_mem_cons.mp hc
    exact List.forall_mem_append.mpr ⟨ht, forall_square htext (htrees hargs)⟩
  | new t =>
    exact List.forall_mem_cons.mpr ⟨htext _ (by decide), hc t (List.mem_singleton_self t)⟩
  | quote t | splice t =>
    exact forall_between htext (by decide) (hc t (List.mem_singleton_self t)) (by decide)
  | block stats r =>
    obtain ⟨hstats, hr⟩ := List.forall_mem_append.mp hc
    have hbody := List.forall_mem_append.mpr
      ⟨forall_semicolons htext (htrees hstats), hr r (List.mem_singleton_self r)⟩
    exact forall_between htext (by decide) hbody (by decide)
  | matchOn t arms =>
    obtain ⟨ht, harms⟩ := List.forall_mem_cons.mp hc
    have hwritten : ∀ x ∈ arms.map arm, ∀ p ∈ x, P p := fun x hx => by
      obtain ⟨a, hmem, rfl⟩ := List.mem_map.mp hx
      exact forall_arm htext fun c hc => harms c (List.mem_flatMap.mpr ⟨a, hmem, hc⟩)
    exact List.forall_mem_append.mpr ⟨ht,
      forall_between htext (by decide) (forall_semicolons htext hwritten) (by decide)⟩
  | bind n q =>
    refine List.forall_mem_cons.mpr ⟨hspelled n (List.mem_singleton_self n), ?_⟩
    split
    · simp
    · exact List.forall_mem_cons.mpr ⟨htext _ (by decide), hc q (List.mem_singleton_self q)⟩
  | lambda ps b =>
    obtain ⟨hps, hb⟩ := List.forall_mem_append.mp hc
    exact List.forall_mem_append.mpr ⟨forall_group htext hspelled hps,
      List.forall_mem_cons.mpr ⟨htext _ (by decide), hb b (List.mem_singleton_self b)⟩⟩
  | valueDef d => exact forall_valueDef htext (hspelled d.name (List.mem_singleton_self _)) ha hc
  | methodDef d =>
    obtain ⟨hn, hnames⟩ := List.forall_mem_cons.mp hspelled
    obtain ⟨htparams, hparams⟩ := List.forall_mem_append.mp hnames
    obtain ⟨hps, hrest⟩ := List.forall_mem_append.mp hc
    obtain ⟨hresult, hbody⟩ := List.forall_mem_append.mp hrest
    have hmods := forall_modifiers htext (List.forall_mem_append.mp ha).1
    have hgroups : ∀ p ∈ d.groups.flatMap group, P p := fun p hp => by
      obtain ⟨ps, hmem, hp⟩ := List.mem_flatMap.mp hp
      have hin : ∀ q ∈ ps, q ∈ d.params := fun q hq => List.mem_flatten.mpr ⟨ps, hmem, hq⟩
      refine forall_group htext (fun n hn => ?_) (fun c hc => ?_) p hp
      · obtain ⟨q, hq, rfl⟩ := List.mem_map.mp hn
        exact hparams _ (List.mem_map_of_mem (hin q hq))
      · obtain ⟨q, hq, hc⟩ := List.mem_flatMap.mp hc
        exact hps c (List.mem_flatMap.mpr ⟨q, hin q hq, hc⟩)
    simp only [layer, methodDef, List.forall_mem_append, List.forall_mem_cons]
    exact ⟨⟨⟨⟨⟨hmods, htext _ (by decide), hn, by simp⟩, forall_typeParams htext htparams⟩, hgroups⟩,
      forall_after htext (by decide) hresult⟩, htext _ (by decide),
      hbody d.body (List.mem_singleton_self _)⟩
  | classDef d =>
    obtain ⟨hn, hnames⟩ := List.forall_mem_cons.mp hspelled
    obtain ⟨htparams, hparams⟩ := List.forall_mem_append.mp hnames
    obtain ⟨hps, hbody⟩ := List.forall_mem_append.mp hc
    have hmods := forall_modifiers htext (List.forall_mem_append.mp ha).1
    simp only [layer, classDef, List.forall_mem_append, List.forall_mem_cons]
    exact ⟨⟨⟨⟨hmods, htext _ (by decide), hn, by simp⟩, forall_typeParams htext htparams⟩,
      forall_group htext hparams hps⟩, forall_members htext hbody⟩
  | objectDef d =>
    have hn := hspelled d.name (List.mem_singleton_self _)
    simp only [layer, objectDef, List.forall_mem_append, List.forall_mem_cons]
    exact ⟨⟨forall_modifiers htext ha, htext _ (by decide), hn, by simp⟩, forall_members htext hc⟩
  | package n stats =>
    have hn := hspelled n (List.mem_singleton_self n)
    exact List.forall_mem_cons.mpr ⟨htext _ (by decide),
      List.forall_mem_cons.mpr ⟨hn, forall_members htext hc⟩⟩

end

end Layout

/-! ## 3. Trees in writing -/

namespace Tree

/-- The names in a tree that stand for themselves, in annotations too. -/
def spelledNames (t : Tree) : List Name := (t.nodes .everything).flatMap (·.shape.spelledNames)

/-- The names in a tree whose text is a string constant, in annotations too. -/
def constantNames (t : Tree) : List Name := (t.nodes .everything).flatMap (·.shape.constantNames)

end Tree

/-- What a piece of a tree can be: fixed text without line breaks, a name where it stands for
itself, a string constant in quotes. -/
def Piece.IsFrom (t : Tree) : Piece → Prop
  | .text s => IsOneLine s
  | .name n => n ∈ t.spelledNames
  | .quoted n => n ∈ t.constantNames

/-- What is from a part of a tree is from the tree. -/
theorem Piece.IsFrom.of_subset {t u : Tree} {p : Piece}
    (h : u.nodes .everything ⊆ t.nodes .everything) (hp : p.IsFrom u) : p.IsFrom t := by
  have hmem : ∀ {f : Tree → List Name} {n : Name}, n ∈ (u.nodes .everything).flatMap f →
      n ∈ (t.nodes .everything).flatMap f := fun hn => by
    obtain ⟨v, hv, hn⟩ := List.mem_flatMap.mp hn
    exact List.mem_flatMap.mpr ⟨v, h hv, hn⟩
  cases p with
  | text s => exact hp
  | name n => exact hmem hp
  | quoted n => exact hmem hp

namespace Tree

variable {i : Interner} {t : Tree}

/-- **What a tree is written from.** -/
theorem isFrom_of_mem_pieces (t : Tree) : ∀ p ∈ t.pieces, p.IsFrom t := by
  induction t using induction with
  | step t ha hc =>
    have hroot : t ∈ t.nodes .everything := by
      rw [nodes_eq]
      exact List.mem_cons_self
    rw [pieces_eq]
    refine Layout.forall_layer (fun _ hs => hs) ?_ ?_ ?_ ?_
    · rw [Shape.annotations_bimap, List.forall_mem_map]
      exact fun a hm p hp => (ha a hm p hp).of_subset (nodes_annotation_subset hm)
    · rw [Shape.children_bimap, List.forall_mem_map]
      exact fun c hm p hp => (hc c hm p hp).of_subset (nodes_child_subset hm)
    · rw [Shape.spelledNames_bimap]
      exact fun n hn => List.mem_flatMap.mpr ⟨t, hroot, hn⟩
    · rw [Shape.constantNames_bimap]
      exact fun n hn => List.mem_flatMap.mpr ⟨t, hroot, hn⟩

/-- **When a tree is written on one line**: if all names that are written as they are have text
without line breaks. -/
theorem isOneLine_print_iff :
    IsOneLine (t.print i) ↔ ∀ n, .name n ∈ t.pieces → IsOneLine (i.text n) := by
  rw [print, writePieces, Text.isOneLine_join, List.forall_mem_map]
  constructor
  · exact fun h n hn => h (.name n) hn
  · intro h p hp
    cases p with
    | text s => exact t.isFrom_of_mem_pieces _ hp
    | name n => exact h n hp
    | quoted n => exact Text.isOneLine_quote (i.text n)

/-- **Trees are written on one line.**  If no name that stands for itself in the tree has a line
break in it, there is none in the tree in writing, whatever its string constants hold.  The tree
can be written if the names that stand in it are known. -/
theorem print_isOneLine (h : ∀ n ∈ t.spelledNames, IsOneLine (i.text n)) :
    IsOneLine (t.print i) ∧ (∀ text, t.print? i = some text → IsOneLine text) ∧
      ((∀ n ∈ t.spelledNames ++ t.constantNames, i.Knows n) → ∃ text, t.print? i = some text) := by
  have hline : IsOneLine (t.print i) :=
    isOneLine_print_iff.mpr fun n hn => h n (t.isFrom_of_mem_pieces _ hn)
  refine ⟨hline, fun text htext => (print?_eq_some_iff.mp htext).2 ▸ hline, fun hknown => ?_⟩
  refine ⟨t.print i, print?_eq_some_iff.mpr ⟨fun p hp n hn => hknown n ?_, rfl⟩⟩
  have hfrom := t.isFrom_of_mem_pieces p hp
  cases p with
  | text s => exact absurd hn List.not_mem_nil
  | name m =>
    obtain rfl := List.mem_singleton.mp hn
    exact List.mem_append_left _ hfrom
  | quoted m =>
    obtain rfl := List.mem_singleton.mp hn
    exact List.mem_append_right _ hfrom

/-- Line breaks in a string constant, one of them inside an annotation. -/
theorem print_isOneLine_constant :
    let i := (Interner.new.intern "a\nb\r").2
    let constant : Tree := ofShape (.literal (.str ⟨10⟩)) .nowhere
    let note := apply (ofShape (.new (typeIdent ⟨2⟩ .nowhere)) .nowhere) [constant] .nowhere
    let t := valueDef { mods := { annotations := [note] }, name := ⟨1⟩, tpe := none,
                        init := some constant, span := .nowhere }
    (∀ n ∈ t.spelledNames, IsOneLine (i.text n)) ∧ ¬ IsOneLine (i.text ⟨10⟩) ∧
      t.print? i = some "@Apply(\"a\\nb\\r\") val self = \"a\\nb\\r\"" ∧
      IsOneLine "@Apply(\"a\\nb\\r\") val self = \"a\\nb\\r\"" := by
  intro i constant note t
  have hnames : ∀ n ∈ t.spelledNames, IsOneLine (i.text n) := by decide +kernel
  have hprint : t.print? i = some "@Apply(\"a\\nb\\r\") val self = \"a\\nb\\r\"" := by
    decide +kernel
  exact ⟨hnames, by decide +kernel, hprint, (print_isOneLine hnames).2.1 _ hprint⟩

end Tree

end Enrich
