import Enrich.Proofs.Interning
import Enrich.Proofs.Looks
import Enrich.Tree.Names
import Mathlib.Data.List.Perm.Subperm
/-!
# Generated names are fresh

A name is generated for the wrapper class of an extension, and more of them for the generator of a
staged one.  Nothing else that a run does adds to the interner.  So the names that are generated in
a run are those that the interner has gained by it, in the order in which it gained them, and they
can be told look by look (`Look.Generates`).

That a generated name is new rests on the counter of the supply: different numbers give different
candidates, and one more of them than there are strings cannot all be interned.

* `NameSupply.find?_next`: the search for a number comes to an end.
* `NameSupply.get?_candidate_next`: it ends with a new name.
* `Interner.gained`, `Gains`: what an interner gains by a step.
* `expandUnit_generates`: the main statement.
-/

namespace Enrich

/-! ## 1. What an interner gains -/

namespace Interner

/-- The names that `j` knows beyond those of `i`, from first to last. -/
def gained (i j : Interner) : List Name := (List.range' i.size (j.size - i.size)).map Name.mk

variable {i j k : Interner}

/-- What is gained is what is known now and was not before. -/
theorem mem_gained {n : Name} : n ∈ i.gained j ↔ ¬ i.Knows n ∧ j.Knows n := by
  simp only [gained, List.mem_map, List.mem_range'_1, Knows]
  constructor
  · rintro ⟨m, hm, rfl⟩
    dsimp only
    omega
  · intro h
    exact ⟨n.index, by omega, rfl⟩

theorem nodup_gained (i j : Interner) : (i.gained j).Nodup :=
  List.Pairwise.map Name.mk (fun _ _ hne h => hne (congrArg Name.index h)) (List.nodup_range' 1)

@[simp] theorem gained_self (i : Interner) : i.gained i = [] := by simp [gained]

namespace Extends

theorem size_le (h : j.Extends i) : i.size ≤ j.size := h.length_le

/-- What is known stays known. -/
theorem knows (h : j.Extends i) {n : Name} (hn : i.Knows n) : j.Knows n :=
  Nat.lt_of_lt_of_le hn h.size_le

theorem text_eq (h : j.Extends i) {n : Name} (hn : i.Knows n) : j.text n = i.text n := by
  rw [text, h.lookup? (lookup?_of_knows hn), Option.getD_some]

/-- What is gained by two steps is gained by the first, then by the second. -/
theorem gained_trans (h : j.Extends i) (h' : k.Extends j) :
    i.gained k = i.gained j ++ j.gained k := by
  have hij := h.size_le
  have hjk := h'.size_le
  have hsplit : List.range' i.size (k.size - i.size) =
      List.range' i.size (j.size - i.size) ++ List.range' j.size (k.size - j.size) := by
    have hstart : j.size = i.size + 1 * (j.size - i.size) := by omega
    have hlength : k.size - i.size = (j.size - i.size) + (k.size - j.size) := by omega
    rw [hlength, ← List.range'_append, ← hstart]
  rw [gained, hsplit, List.map_append]
  rfl

/-- The strings that were added are those of the names that were gained. -/
theorem strings_eq (h : j.Extends i) : j.strings = i.strings ++ (i.gained j).map j.text := by
  obtain ⟨rest, hrest⟩ := h
  have hlength : j.size - i.size = rest.length := by
    simp [size, ← hrest]
  rw [← hrest, List.append_cancel_left_eq]
  refine List.ext_getElem (by simp [gained, hlength]) fun k hk _ => ?_
  have hlookup : j.lookup? ⟨i.size + k⟩ = some rest[k] := by
    change j.strings[i.strings.length + k]? = some rest[k]
    rw [← hrest, List.getElem?_append_right (Nat.le_add_right _ _)]
    simp [hk]
  simp [gained, text, hlookup]

/-- The strings that were added are distinct and new. -/
theorem nodup_texts_gained (h : j.Extends i) :
    ((i.gained j).map j.text).Nodup ∧ ∀ s ∈ (i.gained j).map j.text, s ∉ i.strings := by
  have hnodup : (i.strings ++ (i.gained j).map j.text).Nodup := h.strings_eq ▸ j.nodup
  obtain ⟨-, htexts, hdisjoint⟩ := List.nodup_append.mp hnodup
  exact ⟨htexts, fun s hnew hold => hdisjoint s hold s hnew rfl⟩

end Extends

end Interner

/-! ## 2. The supply of names -/

namespace NameSupply

variable (s : NameSupply) (hint : String)

/-- Candidates for one hint differ by the number they end in. -/
theorem candidate_inj {j k : Nat} (h : candidate hint j = candidate hint k) : j = k :=
  toString_nat_inj ((String.append_right_inj _).mp h)

/-- **The search finds a number**: there are more candidates than strings. -/
theorem find?_next :
    (List.range' (s.counter + 1) (s.interner.size + 1)).find?
      (fun k => (s.interner.get? (candidate hint k)).isNone) = some (s.next hint) := by
  let numbers := List.range' (s.counter + 1) (s.interner.size + 1)
  obtain ⟨k, hk⟩ : ∃ k, numbers.find? (fun k => (s.interner.get? (candidate hint k)).isNone) =
      some k := by
    rw [← Option.isSome_iff_exists, Option.isSome_iff_ne_none, ne_eq, List.find?_eq_none]
    intro hall
    have hsubset : numbers.map (candidate hint) ⊆ s.interner.strings := by
      intro text htext
      obtain ⟨k, hk, rfl⟩ := List.mem_map.mp htext
      by_contra hnew
      exact hall k hk (by rw [Interner.get?_eq_none_iff.mpr hnew]; rfl)
    have hnodup : (numbers.map (candidate hint)).Nodup :=
      List.Pairwise.map _ (fun _ _ hne h => hne (candidate_inj hint h)) (List.nodup_range' 1)
    have hle := (List.subperm_of_subset hnodup hsubset).length_le
    simp only [List.length_map, numbers, List.length_range', Interner.size] at hle
    omega
  have hnext : s.next hint = k := by
    rw [next]
    exact congrArg (Option.getD · _) hk
  rw [hnext]
  exact hk

/-- The number that is found has a new name. -/
theorem get?_candidate_next : s.interner.get? (candidate hint (s.next hint)) = none := by
  simpa using List.find?_some (s.find?_next hint)

theorem counter_lt_next : s.counter < s.next hint :=
  (List.mem_range'_1.mp (List.mem_of_find?_eq_some (s.find?_next hint))).1

/-- **A generated name is new**, and nothing else is added. -/
theorem fresh_spec :
    (s.fresh hint).1 = ⟨s.interner.size⟩ ∧ (s.fresh hint).2.interner.strings =
      s.interner.strings ++ [candidate hint (s.next hint)] :=
  Interner.strings_intern_of_get?_eq_none (s.get?_candidate_next hint)

theorem size_fresh : (s.fresh hint).2.interner.size = s.interner.size + 1 := by
  rw [Interner.size, (s.fresh_spec hint).2, List.length_append]
  rfl

theorem extends_fresh : (s.fresh hint).2.interner.Extends s.interner := by
  rw [Interner.Extends, (s.fresh_spec hint).2]
  exact List.prefix_append _ _

/-- A generated name is all that is gained by generating it. -/
theorem gained_fresh : s.interner.gained (s.fresh hint).2.interner = [(s.fresh hint).1] := by
  rw [Interner.gained, s.size_fresh, (s.fresh_spec hint).1]
  simp

end NameSupply

/-! ## 3. What the interner gains by a step -/

/-- The names that the interner gains by the step are those that `Q` says of what it yields. -/
def Gains {α : Type} (x : ExpandM α) (Q : α → List Name → Prop) : Prop :=
  ∀ s, (x.run s).2.supply.interner.Extends s.supply.interner ∧
    Q (x.run s).1 (s.supply.interner.gained (x.run s).2.supply.interner)

namespace Gains

variable {α β : Type} {x : ExpandM α} {Q Q' : α → List Name → Prop}

theorem imp (h : Gains x Q) (hQ : ∀ a names, Q a names → Q' a names) : Gains x Q' :=
  fun s => ⟨(h s).1, hQ _ _ (h s).2⟩

/-- A step that leaves the interner alone. -/
theorem of_interner_eq (h : ∀ s, (x.run s).2.supply.interner = s.supply.interner)
    (hQ : ∀ s, Q (x.run s).1 []) : Gains x Q := fun s => by
  rw [h s, Interner.gained_self]
  exact ⟨.refl _, hQ s⟩

theorem pure {a : α} (h : Q a []) : Gains (pure a) Q := of_interner_eq (fun _ => rfl) fun _ => h

theorem bind {f : α → ExpandM β} {R : β → List Name → Prop} (hx : Gains x Q)
    (hf : ∀ a names, Q a names → Gains (f a) fun b more => R b (names ++ more)) :
    Gains (x >>= f) R := by
  intro s
  obtain ⟨hgrows, hQ⟩ := hx s
  obtain ⟨hgrows', hR⟩ := hf _ _ hQ (x.run s).2
  rw [run_bind_fst, hgrows.gained_trans hgrows']
  exact ⟨hgrows'.trans hgrows, hR⟩

theorem fresh (hint : String) : Gains (ExpandM.fresh hint) fun n names => names = [n] :=
  fun s => ⟨s.supply.extends_fresh hint, s.supply.gained_fresh hint⟩

theorem freshFrom (base : Name) : Gains (ExpandM.freshFrom base) fun n names => names = [n] :=
  fun s => ⟨s.supply.extends_fresh _, s.supply.gained_fresh _⟩

theorem report (f : Finding) : Gains (ExpandM.report f) fun _ names => names = [] :=
  of_interner_eq (fun _ => rfl) fun _ => rfl

theorem reportFaults (faults : List Fault) :
    Gains (ExpandM.reportFaults faults) fun _ names => names = [] :=
  of_interner_eq (fun _ => rfl) fun _ => rfl

/-- One name for each element. -/
theorem mapM_fresh (hint : String) : ∀ l : List α,
    Gains (l.mapM fun _ => ExpandM.fresh hint) fun ns names => names = ns ∧ ns.length = l.length
  | [] => .pure ⟨rfl, rfl⟩
  | a :: l => by
    rw [List.mapM_cons]
    refine (fresh hint).bind fun n names hn => (mapM_fresh hint l).bind fun ns more hns => .pure ?_
    rw [hn, hns.1]
    simp [hns.2]

end Gains

/-- All the names of a staged extension, in the order in which they are generated. -/
def StagedNames.all (ns : StagedNames) : List Name :=
  ns.group :: ns.context :: ns.selfTree :: ns.evidence

theorem Extension.gains_stagedNames (e : Extension) (target : Target) :
    Gains (e.stagedNames target) fun ns names => names = ns.all ∧
      ns.evidence.length = (splitTypeParams e.method.tparams target).2.length := by
  refine (Gains.freshFrom _).bind fun group names₁ h₁ => ?_
  refine (Gains.fresh _).bind fun context names₂ h₂ => ?_
  refine (Gains.fresh _).bind fun selfTree names₃ h₃ => ?_
  refine (Gains.mapM_fresh _ _).bind fun evidence names₄ h₄ => .pure ?_
  rw [h₁, h₂, h₃, h₄.1]
  exact ⟨by simp [StagedNames.all], h₄.2⟩

/-! ## 4. What is generated in a look -/

/-- The names that are generated for an extension that is replaced by `trees`.  For a runtime
extension it is that of the wrapper class.  For a staged one it is that of the wrapper class and its
companion, that of the context, that of the receiver's tree, and one for each type parameter that
stays with the method. -/
def Extension.Generates (v : Vocabulary) (e : Extension) (target : Target) (trees : List Tree)
    (names : List Name) : Prop :=
  match e.kind with
  | .runtime => ∃ group, trees = [e.runtimeTree v target group] ∧ names = [group]
  | .staged => ∃ ns : StagedNames, trees = e.stagedTrees v target ns ∧ names = ns.all ∧
      ns.evidence.length = (splitTypeParams e.method.tparams target).2.length

/-- The names that are generated in a look: those for an extension that is replaced, and none for
anything that is kept or dropped. -/
def Look.Generates (v : Vocabulary) (l : Look) (names : List Name) : Prop :=
  match judge v l.scope l.member with
  | .keep _ => l.outcome = .kept ∧ names = []
  | .drop _ => l.outcome = .dropped ∧ names = []
  | .extend _ e target =>
    ∃ trees, l.outcome = .replaced trees ∧ e.Generates v target trees names

theorem Extension.gains_generate (v : Vocabulary) (e : Extension) (target : Target) :
    Gains (e.generate v target) (e.Generates v target) := by
  unfold generate Generates
  cases e.kind with
  | staged =>
    refine (e.gains_stagedNames target).bind fun ns names hns => .pure ⟨ns, rfl, ?_⟩
    rwa [List.append_nil]
  | runtime =>
    refine (Gains.freshFrom _).bind fun group names hgroup => ?_
    refine (Gains.report _).bind fun _ none hnone => .pure ⟨group, rfl, ?_⟩
    rw [hgroup, hnone, List.append_nil, List.append_nil]

/-- What is generated in a look is what the interner gains by it. -/
theorem gains_expand (v : Vocabulary) (scope : Scope) (t : Tree) :
    Gains (expand v scope t) fun outcome names =>
      Look.Generates v { scope, member := t, outcome } names := by
  cases hj : judge v scope t with
  | keep remarks =>
    refine .of_interner_eq (fun s => by rw [run_expand_of_keep hj]) fun s => ?_
    rw [run_expand_of_keep hj]
    simp only [Look.Generates, hj, and_self]
  | drop faults =>
    refine .of_interner_eq (fun s => by rw [run_expand_of_drop hj]) fun s => ?_
    rw [run_expand_of_drop hj]
    simp only [Look.Generates, hj, and_self]
  | extend spelling e target =>
    rw [expand_eq_carryOut, hj]
    simp only [Look.Generates, hj]
    refine (Gains.reportFaults spelling).bind fun _ none hnone => ?_
    refine (e.gains_generate v target).bind fun trees names hnames => .pure ⟨trees, rfl, ?_⟩
    rwa [hnone, List.append_nil, List.nil_append]

/-- The names that a run gains are generated in its looks, look by look. -/
def IsAccounted {α : Type} (v : Vocabulary) (x : StateT (List Look) ExpandM α) : Prop :=
  ∀ old, Gains (x.run old) fun r names => ∃ new generated, r.2 = old ++ new ∧
    List.Forall₂ (Look.Generates v) new generated ∧ names = generated.flatten

namespace IsAccounted

variable {α β : Type} {v : Vocabulary}

theorem pure (a : α) : IsAccounted v (pure a) := fun old =>
  Gains.pure ⟨[], [], (List.append_nil old).symm, .nil, rfl⟩

theorem bind {x : StateT (List Look) ExpandM α} {f : α → StateT (List Look) ExpandM β}
    (hx : IsAccounted v x) (hf : ∀ a, IsAccounted v (f a)) : IsAccounted v (x >>= f) := by
  intro old
  rw [StateT.run_bind]
  refine (hx old).bind fun r names ⟨new, generated, hr, hlooks, hnames⟩ => ?_
  refine (hf r.1 r.2).imp fun r' more ⟨new', generated', hr', hlooks', hmore⟩ => ?_
  refine ⟨new ++ new', generated ++ generated', ?_, List.rel_append hlooks hlooks', ?_⟩
  · rw [hr', hr, List.append_assoc]
  · rw [hnames, hmore, List.flatten_append]

theorem expand (v : Vocabulary) (scope : Scope) (t : Tree) :
    IsAccounted v (expandRecorded v scope t) := by
  intro old
  have hrun : (expandRecorded v scope t).run old = Enrich.expand v scope t >>= fun outcome =>
      Pure.pure (outcome, old ++ [⟨scope, t, outcome⟩]) := rfl
  rw [hrun]
  refine (gains_expand v scope t).bind fun outcome names hnames => .pure ?_
  exact ⟨[⟨scope, t, outcome⟩], [names], rfl, .cons hnames .nil, by simp⟩

end IsAccounted

/-! ## 5. The main statement -/

/-- The names in a vocabulary are known. -/
theorem Vocabulary.knows_of_mem_names {o : Options} {i j : Interner} {v : Vocabulary}
    (h : (Vocabulary.intern o).run i = (v, j)) {n : Name} (hn : n ∈ v.names) : j.Knows n := by
  have hmem : j.lookup? n ∈ o.words.map some := by
    rw [← Vocabulary.lookup?_names h]
    exact List.mem_map_of_mem hn
  obtain ⟨word, -, hword⟩ := List.mem_map.mp hmem
  exact Interner.knows_of_lookup? hword.symm

/-- The names that a run gains are generated in its looks, look by look. -/
theorem exists_generated (v : Vocabulary) (t : Tree) (s : ExpandState) :
    let j := ((expandUnit v t).run s).2.supply.interner
    j.Extends s.supply.interner ∧ ∃ generated,
      List.Forall₂ (Look.Generates v) (looks v t s) generated ∧
        s.supply.interner.gained j = generated.flatten := by
  intro j
  have hall : IsAccounted v (expandRounds (expandRecorded v) t.expansionDepth t) :=
    expandRounds_of_looks IsAccounted.pure IsAccounted.bind (IsAccounted.expand v) _ t
  obtain ⟨hgrows, new, generated, hlooks, hgenerated, hnames⟩ := hall [] s
  have hstate := congrArg Prod.snd (recorded_expandUnit v t s).run
  rw [hstate] at hgrows hnames
  refine ⟨hgrows, generated, ?_, hnames⟩
  rwa [looks, hlooks, List.nil_append]

/-- A run only adds to the interner. -/
theorem extends_expandUnit (v : Vocabulary) (t : Tree) (s : ExpandState) :
    ((expandUnit v t).run s).2.supply.interner.Extends s.supply.interner :=
  (exists_generated v t s).1

/-- **Generated names are fresh.**  Take a unit whose names are known once the words of the expander
are interned.  The run on it adds nothing to the interner but the names generated in its looks: each
look has its own, as `Look.Generates` says, and they are added in the order of the looks.  No name
is generated twice, and none has a text that was interned before; so none is in the unit, and none
is the receiver's, that of an annotation or of another word of the expander. -/
theorem expandUnit_generates {o : Options} {i₀ i : Interner} {v : Vocabulary}
    (hv : (Vocabulary.intern o).run i₀ = (v, i)) {t : Tree} (ht : ∀ n ∈ t.names, i.Knows n) :
    let s : ExpandState := { supply := { interner := i } }
    let j := ((expandUnit v t).run s).2.supply.interner
    ∃ generated, List.Forall₂ (Look.Generates v) (looks v t s) generated ∧
      j.strings = i.strings ++ generated.flatten.map j.text ∧
      generated.flatten.Nodup ∧ (generated.flatten.map j.text).Nodup ∧
      ∀ n ∈ generated.flatten, j.text n ∉ i.strings ∧ n ∉ t.names ∧ n ∉ v.names := by
  intro s j
  obtain ⟨hgrows, generated, hlooks, hnames⟩ := exists_generated v t s
  have hstrings : j.strings = i.strings ++ generated.flatten.map j.text := by
    rw [← hnames]
    exact hgrows.strings_eq
  obtain ⟨htexts, hdisjoint⟩ := hgrows.nodup_texts_gained
  rw [hnames] at htexts hdisjoint
  refine ⟨generated, hlooks, hstrings, hnames ▸ Interner.nodup_gained i j, htexts, fun n hn => ?_⟩
  have hnew : ¬ i.Knows n := (Interner.mem_gained.mp (hnames ▸ hn)).1
  exact ⟨hdisjoint _ (List.mem_map_of_mem hn), fun hold => hnew (ht n hold),
    fun hold => hnew (Vocabulary.knows_of_mem_names hv hold)⟩

/-- A staged extension with a runtime extension in its body, in a package. -/
theorem expandUnit_generates_nested :
    let v := Vocabulary.usual
    let i := ((Vocabulary.intern {}).run .new).2
    let inner := Tree.extensionDef v.annotations.runtime v.tree (.typeIdent v.list .nowhere) none
      (.ident v.selfName .nowhere) .nowhere
    let outer := Tree.extensionDef v.annotations.staged v.apply (.typeIdent v.list .nowhere)
      (some (.typeIdent v.list .nowhere))
      (.block [inner] (.ident v.selfName .nowhere) .nowhere) .nowhere
    let unit := Tree.ofShape (.package v.list [outer]) .nowhere
    (∀ n ∈ unit.names, i.Knows n) ∧
      let s : ExpandState := { supply := { interner := i } }
      let j := ((expandUnit v unit).run s).2.supply.interner
      ∃ generated, List.Forall₂ (Look.Generates v) (looks v unit s) generated ∧
        j.strings = i.strings ++ generated.flatten.map j.text ∧
        generated.flatten.Nodup ∧ (generated.flatten.map j.text).Nodup ∧
        ∀ n ∈ generated.flatten, j.text n ∉ i.strings ∧ n ∉ unit.names ∧ n ∉ v.names := by
  intro v i inner outer unit
  have hv : (Vocabulary.intern {}).run .new = (v, i) := rfl
  have hknown : ∀ n ∈ unit.names, i.Knows n := by decide +kernel
  exact ⟨hknown, expandUnit_generates hv hknown⟩

end Enrich
