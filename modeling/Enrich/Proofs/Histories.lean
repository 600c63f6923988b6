import Enrich.Proofs.Mirror
import Enrich.Session.Basic
import Mathlib.Logic.Equiv.Basic
/-!
# Units do not depend on what the session has done before

All that a session keeps from one operation to the next is its interner.  So what was done before
can have an effect on two things: which number the name of a string has, and which candidates for
generated names are taken.  Neither is seen in what a session reports on a unit, and the expanded
unit is the same but for the generated names.

A unit is given by its strings.  In two sessions it is therefore two trees, one a renaming of the
other, such that corresponding names have the same string (`Tree.ReadsAs`).

* `exists_correspondence`: the renaming under which two runs go the same.
* `exists_sameRun`: what is the same in two runs.
* `exists_perm_of_lists`: strings that are generated in one run, for those of the other.
* `Session.expand_congr`, `Session.expand_after_history`: what is the same in two sessions.
-/

namespace Enrich

/-! ## 1. The same tree in two interners -/

/-- With the names of `i`, the tree `t` is the one that `u` is with the names of `j`, but that there
is `ρ text` in `u` where there is `text` in `t`. -/
def Tree.ReadsAs (ρ : String → String) (t : Tree) (i : Interner) (u : Tree) (j : Interner) : Prop :=
  ∃ f : Name → Name, u = t.rename f ∧
    ∀ n ∈ t.names, ∃ text, i.lookup? n = some text ∧ j.lookup? (f n) = some (ρ text)

/-- The name `n` of `i` and the name `m` of `j` have the same string. -/
def SameText (i j : Interner) (n m : Name) : Prop :=
  ∃ text, i.lookup? n = some text ∧ j.lookup? m = some text

namespace SameText

variable {i j i' j' : Interner} {n n' m m' : Name}

theorem knows (h : SameText i j n m) : i.Knows n ∧ j.Knows m := by
  obtain ⟨text, hi, hj⟩ := h
  exact ⟨Interner.knows_of_lookup? hi, Interner.knows_of_lookup? hj⟩

theorem left_unique (h : SameText i j n m) (h' : SameText i j n' m) : n = n' := by
  obtain ⟨text, hi, hj⟩ := h
  obtain ⟨text', hi', hj'⟩ := h'
  rw [hj, Option.some.injEq] at hj'
  exact Interner.lookup?_inj hi (hj' ▸ hi')

theorem right_unique (h : SameText i j n m) (h' : SameText i j n m') : m = m' := by
  obtain ⟨text, hi, hj⟩ := h
  obtain ⟨text', hi', hj'⟩ := h'
  rw [hi, Option.some.injEq] at hi'
  exact Interner.lookup?_inj hj (hi' ▸ hj')

/-- They still have when more strings are known. -/
theorem text_eq (h : SameText i j n m) (hi : i'.Extends i) (hj : j'.Extends j) :
    j'.text m = i'.text n := by
  obtain ⟨text, htext, htext'⟩ := h
  rw [Interner.text, hj.lookup? htext', Interner.text, hi.lookup? htext]

end SameText

namespace Interner

variable {i j : Interner}

/-- The name in `j` that a name corresponds to: the one of the same string, or, for a name that is
not known yet, the one that is as far from being known. -/
def counterpart (i j : Interner) (n : Name) : Name :=
  if i.Knows n then (j.intern (i.text n)).1 else ⟨n.index - i.size + j.size⟩

theorem counterpart_eq {n m : Name} (h : SameText i j n m) : i.counterpart j n = m := by
  have hknows := h.knows.1
  obtain ⟨text, hi, hj⟩ := h
  rw [counterpart, if_pos hknows, Interner.text, hi, Option.getD_some, intern_of_lookup? hj]

theorem counterpart_next (i j : Interner) (k : Nat) :
    i.counterpart j ⟨i.size + k⟩ = ⟨j.size + k⟩ := by
  have hnot : ¬ i.Knows ⟨i.size + k⟩ := Nat.not_lt_of_le (Nat.le_add_right _ _)
  rw [counterpart, if_neg hnot, Name.mk.injEq, Nat.add_sub_cancel_left, Nat.add_comm]

/-- Names whose strings are known on the other side, and names that come next, have different
counterparts. -/
theorem counterpart_inj {n n' : Name} (hn : (∃ m, SameText i j n m) ∨ ∃ k, n = ⟨i.size + k⟩)
    (hn' : (∃ m, SameText i j n' m) ∨ ∃ k, n' = ⟨i.size + k⟩)
    (h : i.counterpart j n = i.counterpart j n') : n = n' := by
  have hapart : ∀ {m : Name} {k : Nat}, j.Knows m → m ≠ ⟨j.size + k⟩ := by
    rintro m k hm rfl
    exact absurd hm (Nat.not_lt_of_le (Nat.le_add_right _ _))
  rcases hn with ⟨m, hm⟩ | ⟨k, rfl⟩ <;> rcases hn' with ⟨m', hm'⟩ | ⟨k', rfl⟩
  · rw [counterpart_eq hm, counterpart_eq hm'] at h
    exact hm.left_unique (h ▸ hm')
  · rw [counterpart_eq hm, counterpart_next] at h
    exact absurd h (hapart hm.knows.2)
  · rw [counterpart_eq hm', counterpart_next] at h
    exact absurd h.symm (hapart hm'.knows.2)
  · rw [counterpart_next, counterpart_next, Name.mk.injEq] at h
    rw [Nat.add_left_cancel h]

/-- What is gained on one side, name by name, is gained on the other. -/
theorem map_gained {i' j' : Interner} {f : Name → Name} {count : Nat}
    (hi : i'.size = i.size + count) (hj : j'.size = j.size + count)
    (hf : ∀ k < count, f ⟨i.size + k⟩ = ⟨j.size + k⟩) : (i.gained i').map f = j.gained j' := by
  rw [gained, gained, hi, hj, Nat.add_sub_cancel_left, Nat.add_sub_cancel_left,
    List.range'_eq_map_range, List.range'_eq_map_range]
  simp only [List.map_map]
  exact List.map_congr_left fun k hk => hf k (List.mem_range.mp hk)

end Interner

/-- **The renaming between two runs.**  Names that have the same strings correspond, and so do the
next names, one by one. -/
theorem exists_correspondence {i j : Interner} {l : List Name}
    (hl : ∀ n ∈ l, ∃ m, SameText i j n m) (count : Nat) :
    ∃ f : Name → Name, Function.Injective f ∧ (∀ n ∈ l, SameText i j n (f n)) ∧
      ∀ k < count, f ⟨i.size + k⟩ = ⟨j.size + k⟩ := by
  let next := (List.range count).map fun k => (⟨i.size + k⟩ : Name)
  have hkinds : ∀ n ∈ l ++ next, (∃ m, SameText i j n m) ∨ ∃ k, n = ⟨i.size + k⟩ := by
    intro n hn
    rcases List.mem_append.mp hn with hn | hn
    · exact .inl (hl n hn)
    · obtain ⟨k, -, hk⟩ := List.mem_map.mp hn
      exact .inr ⟨k, hk.symm⟩
  obtain ⟨f, hf, hin, -⟩ := exists_renaming fun n hn n' hn' =>
    Interner.counterpart_inj (hkinds n hn) (hkinds n' hn')
  refine ⟨f, hf, fun n hn => ?_, fun k hk => ?_⟩
  · obtain ⟨m, hm⟩ := hl n hn
    rwa [hin n (List.mem_append_left _ hn), Interner.counterpart_eq hm]
  · have hmem : (⟨i.size + k⟩ : Name) ∈ next := List.mem_map_of_mem (List.mem_range.mpr hk)
    rw [hin _ (List.mem_append_right _ hmem), Interner.counterpart_next]

section

variable {o : Options} {i₀ j₀ i j : Interner} {v w : Vocabulary}
  (hv : (Vocabulary.intern o).run i₀ = (v, i)) (hw : (Vocabulary.intern o).run j₀ = (w, j))
include hv hw

/-- The words of the expander are known on either side. -/
theorem Vocabulary.exists_sameText : ∀ n ∈ v.names, ∃ m, SameText i j n m := by
  intro n hn
  have hword : i.lookup? n ∈ w.names.map j.lookup? := by
    rw [Vocabulary.lookup?_names hw, ← Vocabulary.lookup?_names hv]
    exact List.mem_map_of_mem hn
  obtain ⟨m, -, hm⟩ := List.mem_map.mp hword
  have hi := Interner.lookup?_of_knows (Vocabulary.knows_of_mem_names hv hn)
  exact ⟨m, i.text n, hi, hm.trans hi⟩

/-- If the words correspond, the vocabularies do. -/
theorem Vocabulary.eq_rename {f : Name → Name} (hf : ∀ n ∈ v.names, SameText i j n (f n)) :
    w = v.rename f := by
  have hlookup : (v.names.map f).map j.lookup? = o.words.map some := by
    rw [← Vocabulary.lookup?_names hv, List.map_map]
    refine List.map_congr_left fun n hn => ?_
    obtain ⟨text, hi, hj⟩ := hf n hn
    rw [Function.comp_apply, hi, hj]
  have hnames : w.names = v.names.map f :=
    Interner.map_lookup?_inj (Vocabulary.lookup?_names hw) hlookup
  obtain ⟨⟨_, _, _⟩, _, _, _, _, _, _, _, _⟩ := w
  simp only [names, List.map_cons, List.map_nil, List.cons.injEq, and_true] at hnames
  simp only [rename, AnnotationNames.rename, hnames]

end

/-! ## 2. Generated strings -/

/-- **Strings for strings.**  What is listed in `as` can be exchanged for what is listed in `bs`
without giving two strings the same one, and without touching any other. -/
theorem exists_perm_of_lists {α : Type} [DecidableEq α] : ∀ {as bs : List α},
    as.length = bs.length → as.Nodup → bs.Nodup →
      ∃ ρ : Equiv.Perm α, as.map ρ = bs ∧ ∀ x, ρ x ≠ x → x ∈ as ∨ x ∈ bs
  | [], [], _, _, _ => ⟨Equiv.refl α, rfl, fun _ h => absurd rfl h⟩
  | a :: as, b :: bs, hlength, has, hbs => by
    obtain ⟨hna, has⟩ := List.nodup_cons.mp has
    obtain ⟨hnb, hbs⟩ := List.nodup_cons.mp hbs
    obtain ⟨ρ, hmap, hmoved⟩ := exists_perm_of_lists (Nat.succ.inj hlength) has hbs
    refine ⟨ρ.trans (Equiv.swap (ρ a) b), ?_, fun x hx => ?_⟩
    · rw [List.map_cons, ← hmap]
      congr 1
      · exact Equiv.swap_apply_left _ _
      · refine List.map_congr_left fun x hx => ?_
        -- what `x` has become is listed in `bs`, so it is not `b`
        have hxb : ρ x ≠ b := fun h => hnb (hmap ▸ h ▸ List.mem_map_of_mem hx)
        have hxa : ρ x ≠ ρ a := fun h => hna (ρ.injective h ▸ hx)
        exact Equiv.swap_apply_of_ne_of_ne hxa hxb
    · by_contra hnot
      simp only [List.mem_cons, not_or] at hnot
      have hfixed : ρ x = x := by
        by_contra hne
        exact (hmoved x hne).elim hnot.1.2 hnot.2.2
      have hxa : x ≠ ρ a := fun h => hnot.1.1 (ρ.injective (hfixed.trans h))
      refine hx ?_
      rw [Equiv.trans_apply, hfixed]
      exact Equiv.swap_apply_of_ne_of_ne hxa hnot.2.1

/-! ## 3. Two runs -/

/-- Two runs that are the same under the renaming `f`, from `i` and from `j`. -/
structure SameRun (f : Name → Name) (v w : Vocabulary) (i j : Interner)
    (r r' : Tree × ExpandState) : Prop where
  tree : r'.1 = r.1.rename f
  /-- What was found is put into the same words. -/
  reports : r'.2.findings.map (·.diagnostic w.annotations r'.2.supply.interner) =
    r.2.findings.map (·.diagnostic v.annotations r.2.supply.interner)
  /-- The names that one run has generated correspond to those of the other. -/
  gained : (i.gained r.2.supply.interner).map f = j.gained r'.2.supply.interner
  /-- All other names in the tree have the strings that they had. -/
  names : ∀ n ∈ r.1.names, SameText i j n (f n) ∨ n ∈ i.gained r.2.supply.interner

/-- **Two runs on a unit are the same.** -/
theorem exists_sameRun {o : Options} {i₀ j₀ i j : Interner} {v w : Vocabulary} {t u : Tree}
    (hv : (Vocabulary.intern o).run i₀ = (v, i)) (hw : (Vocabulary.intern o).run j₀ = (w, j))
    (ht : t.ReadsAs id i u j) :
    ∃ f, SameRun f v w i j ((expandUnit v t).run { supply := { interner := i } })
      ((expandUnit w u).run { supply := { interner := j } }) := by
  obtain ⟨f₀, rfl, hread⟩ := ht
  let s : ExpandState := { supply := { interner := i } }
  let s' : ExpandState := { supply := { interner := j } }
  let out := (expandUnit v t).run s
  have hshared : ∀ n ∈ t.names ++ v.names, ∃ m, SameText i j n m := fun n hn =>
    (List.mem_append.mp hn).elim (fun hn => ⟨f₀ n, hread n hn⟩) (Vocabulary.exists_sameText hv hw n)
  obtain ⟨f, hf, hold, hnew⟩ := exists_correspondence hshared
    (out.2.supply.interner.size - i.size)
  have holdTree : ∀ n ∈ t.names, SameText i j n (f n) := fun n hn =>
    hold n (List.mem_append_left _ hn)
  have holdWord : ∀ n ∈ v.names, SameText i j n (f n) := fun n hn =>
    hold n (List.mem_append_right _ hn)
  have hunit : t.rename f₀ = t.rename f := Tree.rename_congr fun n hn =>
    SameText.right_unique (hread n hn) (holdTree n hn)
  obtain rfl := Vocabulary.eq_rename hv hw holdWord
  rw [hunit]
  let out' := (expandUnit (v.rename f) (t.rename f)).run s'
  obtain ⟨count, new, hadds, hspeak, hright⟩ := mirrors_expandUnit hf
    (P := fun n => n ∈ t.names ++ v.names) (fun n hn => List.mem_append_right _ hn)
    (Tree.asksOnly_of_names fun n hn => List.mem_append_left _ hn) s
  have hsize : out.2.supply.interner.size = i.size + count := hadds.size
  have hnext : ∀ k < count, f ⟨i.size + k⟩ = ⟨j.size + k⟩ := fun k hk => hnew k (by omega)
  obtain ⟨htree, hadds'⟩ := hright s' hnext
  have htext : ∀ n, SameText i j n (f n) →
      out'.2.supply.interner.text (f n) = out.2.supply.interner.text n := fun n hn =>
    hn.text_eq (extends_expandUnit v t s) (extends_expandUnit (v.rename f) (t.rename f) s')
  refine ⟨f, htree, ?_, Interner.map_gained hsize hadds'.size hnext, fun n hn => ?_⟩
  · rw [hadds'.findings, hadds.findings, List.nil_append, List.nil_append, List.map_map]
    refine List.map_congr_left fun x hx => ?_
    exact Finding.diagnostic_rename (fun n hn => htext n (hold n (hspeak x hx n hn)))
      (htext _ (holdWord _ (by simp [Vocabulary.names])))
      (htext _ (holdWord _ (by simp [Vocabulary.names])))
  · rcases names_expandUnit v t s n hn with hn | hn | hn
    · exact .inl (holdTree n hn)
    · exact .inl (holdWord n hn)
    · exact .inr hn

/-! ## 4. Two sessions -/

theorem Tree.ReadsAs.extends {ρ : String → String} {t u : Tree} {i j i' j' : Interner}
    (h : t.ReadsAs ρ i u j) (hi : i'.Extends i) (hj : j'.Extends j) : t.ReadsAs ρ i' u j' := by
  obtain ⟨f, hu, hread⟩ := h
  refine ⟨f, hu, fun n hn => ?_⟩
  obtain ⟨text, htext, htext'⟩ := hread n hn
  exact ⟨text, hi.lookup? htext, hj.lookup? htext'⟩

/-- After two runs that are the same, the trees differ in generated strings only. -/
theorem SameRun.readsAs {f : Name → Name} {v w : Vocabulary} {i j : Interner}
    {r r' : Tree × ExpandState} (h : SameRun f v w i j r r')
    (hi : r.2.supply.interner.Extends i) (hj : r'.2.supply.interner.Extends j) :
    let i' := r.2.supply.interner
    let j' := r'.2.supply.interner
    ∃ ρ : String → String, Function.Injective ρ ∧
      (∀ text, ρ text ≠ text →
        text ∈ (i.gained i').map i'.text ∨ text ∈ (j.gained j').map j'.text) ∧
      r.1.ReadsAs ρ i' r'.1 j' := by
  intro i' j'
  obtain ⟨hnodup, hnew⟩ := hi.nodup_texts_gained
  obtain ⟨hnodup', hnew'⟩ := hj.nodup_texts_gained
  have hlength : ((i.gained i').map i'.text).length = ((j.gained j').map j'.text).length := by
    rw [← h.gained]
    simp only [List.length_map]
    rfl
  obtain ⟨ρ, hmap, hmoved⟩ := exists_perm_of_lists hlength hnodup hnodup'
  refine ⟨ρ, ρ.injective, hmoved, f, h.tree, fun n hn => ?_⟩
  rcases h.names n hn with ⟨text, htext, htext'⟩ | hgained
  · have hfixed : ρ text = text := by
      by_contra hne
      rcases hmoved text hne with hin | hin
      · exact hnew text hin (List.mem_of_getElem? htext)
      · exact hnew' text hin (List.mem_of_getElem? htext')
    exact ⟨text, hi.lookup? htext, hfixed.symm ▸ hj.lookup? htext'⟩
  · have hmap' : (i.gained i').map (ρ ∘ i'.text) = (i.gained i').map (j'.text ∘ f) := by
      rw [← List.map_map, ← List.map_map, hmap, ← h.gained]
    have hgained' : f n ∈ j.gained j' := h.gained ▸ List.mem_map_of_mem hgained
    refine ⟨i'.text n, Interner.lookup?_of_knows (Interner.mem_gained.mp hgained).2, ?_⟩
    rw [Interner.lookup?_of_knows (Interner.mem_gained.mp hgained').2]
    exact congrArg some (List.map_inj_left.mp hmap' n hgained).symm

namespace Session

/-- The strings that are generated in expanding a unit.  Once the words of the expander are known,
nothing else is added to the interner (`exists_generated`). -/
def generated (s : Session) (t : Tree) : List String :=
  let (v, i) := (Vocabulary.intern s.config.toOptions).run s.interner
  let j := ((expandUnit v t).run { supply := { interner := i } }).2.supply.interner
  (i.gained j).map j.text

/-- What a session yields, and what it goes on with. -/
theorem run_expand {s : Session} {v : Vocabulary} {i : Interner}
    (hv : (Vocabulary.intern s.config.toOptions).run s.interner = (v, i)) (t : Tree) :
    let out := (expandUnit v t).run { supply := { interner := i } }
    let j := out.2.supply.interner
    let reports := out.2.findings.map (·.diagnostic v.annotations j)
    (expand t).run s =
        ({ tree := out.1
           diagnostics := (({ config := s.config.queue } : Queue).addAll reports).flush.1 },
          { s with interner := j }) ∧
      s.generated t = (i.gained j).map j.text := by
  intro out j reports
  have hreports : s.expandReports t = (out.1, reports, j) := expandReports_of_run hv rfl
  constructor
  · simp only [expand, StateT.run, hreports]
  · simp only [generated, hv]
    rfl

/-- **A unit comes out the same** in two sessions of one configuration. -/
theorem expand_congr {s s' : Session} (hconfig : s.config = s'.config) {t u : Tree}
    (ht : t.ReadsAs id s.interner u s'.interner) :
    let r := (expand t).run s
    let r' := (expand u).run s'
    r.1.diagnostics = r'.1.diagnostics ∧
      ∃ ρ : String → String, Function.Injective ρ ∧
        (∀ text, ρ text ≠ text → text ∈ s.generated t ∨ text ∈ s'.generated u) ∧
        r.1.tree.ReadsAs ρ r.2.interner r'.1.tree r'.2.interner := by
  obtain ⟨v, i, hv⟩ : ∃ v i, (Vocabulary.intern s.config.toOptions).run s.interner = (v, i) :=
    ⟨_, _, rfl⟩
  obtain ⟨w, j, hw⟩ : ∃ w j, (Vocabulary.intern s'.config.toOptions).run s'.interner = (w, j) :=
    ⟨_, _, rfl⟩
  have hin := ht.extends (Vocabulary.extends_of_intern hv) (Vocabulary.extends_of_intern hw)
  obtain ⟨f, hsame⟩ := exists_sameRun hv (hconfig ▸ hw) hin
  obtain ⟨hrun, hgenerated⟩ := run_expand hv t
  obtain ⟨hrun', hgenerated'⟩ := run_expand hw u
  rw [hrun, hrun', hgenerated, hgenerated', hconfig, ← hsame.reports]
  exact ⟨rfl, hsame.readsAs (extends_expandUnit v t _) (extends_expandUnit w u _)⟩

/-! ## 5. Histories -/

/-- What can be done with a session. -/
inductive Operation : Type 1 where
  /-- Expands a unit. -/
  | expand (unit : Tree)
  /-- Interns a string. -/
  | intern (text : String)
  /-- Emits a reified value. -/
  | emit {V : Type} (lift : Lift V) (r : Reified V)
  /-- Emits a reified value and compiles it. -/
  | compile {V ε γ : Type} (lift : Lift V) (host : Tree → Except ε γ) (r : Reified V)

/-- The session after an operation. -/
def Operation.apply (s : Session) : Operation → Session
  | expand unit => ((Session.expand unit).run s).2
  | intern text => { s with interner := (s.interner.intern text).2 }
  | emit lift r => ((emitReified lift r).run s).2
  | compile lift host r => ((compileReified (m := Id) lift host r).run s).2

/-- The session after one operation after the other. -/
def after (s : Session) (history : List Operation) : Session := history.foldl Operation.apply s

/-- Compiling does to the session what emitting does: the host is not handed the session. -/
theorem run_compileReified_snd {V ε γ : Type} (lift : Lift V) (host : Tree → Except ε γ)
    (r : Reified V) (s : Session) :
    ((compileReified (m := Id) lift host r).run s).2 = ((emitReified lift r).run s).2 := by
  simp only [compileReified, StateT.run]
  split <;> rename_i heq <;> rw [heq] <;> rfl

/-- No operation changes the configuration. -/
theorem config_apply (s : Session) (op : Operation) : (op.apply s).config = s.config := by
  have hemit : ∀ {V : Type} (lift : Lift V) (r : Reified V),
      ((emitReified lift r).run s).2.config = s.config := by
    intro V lift r
    simp only [emitReified, StateT.run]
    split <;> rfl
  cases op with
  | expand unit => simp only [Operation.apply, expand, StateT.run]
  | intern text => rfl
  | emit lift r => exact hemit lift r
  | compile lift host r => rw [Operation.apply, run_compileReified_snd, hemit]

theorem config_after (s : Session) (history : List Operation) :
    (s.after history).config = s.config := by
  induction history generalizing s with
  | nil => rfl
  | cons op history ih => exact (ih (op.apply s)).trans (s.config_apply op)

/-- **The history of a session does not show.**  Take two sessions of one configuration, after
any histories, and a unit given by its strings: a tree in either session, one read as the other.
The sessions report the same on it, diagnostic by diagnostic and in the same order, and the trees
that come out are the same if strings are exchanged, each for one other, and none but strings
generated in these two runs. -/
theorem expand_after_history {s s' : Session} (hconfig : s.config = s'.config)
    (history history' : List Operation) {t u : Tree}
    (ht : t.ReadsAs id (s.after history).interner u (s'.after history').interner) :
    let r := (expand t).run (s.after history)
    let r' := (expand u).run (s'.after history')
    r.1.diagnostics = r'.1.diagnostics ∧
      ∃ ρ : String → String, Function.Injective ρ ∧
        (∀ text, ρ text ≠ text →
          text ∈ (s.after history).generated t ∨ text ∈ (s'.after history').generated u) ∧
        r.1.tree.ReadsAs ρ r.2.interner r'.1.tree r'.2.interner := by
  refine expand_congr ?_ ht
  rw [config_after, config_after, hconfig]

/-- A runtime extension in a package, in a session that is new and in one that has met another
string first and has expanded the unit before. -/
theorem expand_after_history_again :
    let unit (request : Name) : Tree := .ofShape (.package ⟨3⟩ [.extensionDef request ⟨8⟩
      (.typeIdent ⟨3⟩ .nowhere) none (.ident ⟨1⟩ .nowhere) .nowhere]) .nowhere
    let history : List Operation := [.intern "runtimeExtend"]
    let history' : List Operation := [.intern "put", .intern "runtimeExtend", .expand (unit ⟨11⟩)]
    let s : Session := {}
    (unit ⟨10⟩).ReadsAs id (s.after history).interner (unit ⟨11⟩) (s.after history').interner ∧
      let r := (expand (unit ⟨10⟩)).run (s.after history)
      let r' := (expand (unit ⟨11⟩)).run (s.after history')
      r.1.diagnostics = r'.1.diagnostics ∧
        ∃ ρ : String → String, Function.Injective ρ ∧
          (∀ text, ρ text ≠ text → text ∈ (s.after history).generated (unit ⟨10⟩) ∨
            text ∈ (s.after history').generated (unit ⟨11⟩)) ∧
          r.1.tree.ReadsAs ρ r.2.interner r'.1.tree r'.2.interner := by
  intro unit history history' s
  have hreads : (unit ⟨10⟩).ReadsAs id (s.after history).interner (unit ⟨11⟩)
      (s.after history').interner := by
    refine ⟨fun n => if n = ⟨10⟩ then ⟨11⟩ else n, by decide +kernel, ?_⟩
    have hlookup : ∀ n ∈ (unit ⟨10⟩).names, ((s.after history).interner.lookup? n).isSome ∧
        (s.after history').interner.lookup? (if n = ⟨10⟩ then ⟨11⟩ else n) =
          (s.after history).interner.lookup? n := by decide +kernel
    intro n hn
    obtain ⟨hsome, hsame⟩ := hlookup n hn
    obtain ⟨text, htext⟩ := Option.isSome_iff_exists.mp hsome
    exact ⟨text, htext, hsame.trans htext⟩
  exact ⟨hreads, expand_after_history rfl history history' hreads⟩

-- The name that is free in the one session is taken in the other.
example :
    let unit (request : Name) : Tree := .ofShape (.package ⟨3⟩ [.extensionDef request ⟨8⟩
      (.typeIdent ⟨3⟩ .nowhere) none (.ident ⟨1⟩ .nowhere) .nowhere]) .nowhere
    let history' : List Operation := [.intern "put", .intern "runtimeExtend", .expand (unit ⟨11⟩)]
    let s : Session := {}
    (s.after [.intern "runtimeExtend"]).generated (unit ⟨10⟩) = ["tree$1"] ∧
      (s.after history').generated (unit ⟨11⟩) = ["tree$2"] := by
  decide +kernel

end Session

end Enrich
