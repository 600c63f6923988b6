import Enrich.Extension.Vocabulary
import Enrich.Proofs.Runs
/-!
# Interners only grow

Interning appends at most one string, so what an interner knows it knows in all its extensions:
names keep their strings, and a string that has a name is given the same name again.  What is read
off this is stated for any sequence of internings (`Interns`): done again in an extension of the
interner it ends with, it yields the same and leaves the interner alone.

* `Interner.lookup?_intern`: the name of a string has that string.
* `Interner.intern_of_lookup?`: the string of a name has that name.
* `Interner.lookup?_inj`: no two names have the same string.
* `Vocabulary.lookup?_names`: the names in a vocabulary are those of the words.
* `Vocabulary.interns_intern`: the vocabulary of a grown interner is the one it was given before.
-/

namespace Enrich

/-! ## 1. One string -/

namespace Interner

/-- The strings of `i` are the first strings of `j`. -/
def Extends (j i : Interner) : Prop := List.IsPrefix i.strings j.strings

namespace Extends

variable {i j k : Interner}

theorem refl (i : Interner) : i.Extends i := List.prefix_rfl

theorem trans (h : k.Extends j) (h' : j.Extends i) : k.Extends i := List.IsPrefix.trans h' h

/-- Names keep their strings. -/
theorem lookup? (h : j.Extends i) {n : Name} {s : String} (hn : i.lookup? n = some s) :
    j.lookup? n = some s := by
  obtain ⟨rest, hr⟩ := h
  obtain ⟨hlt, rfl⟩ := List.getElem?_eq_some_iff.mp hn
  rw [Interner.lookup?, ← hr, List.getElem?_append_left hlt, List.getElem?_eq_getElem hlt]

end Extends

variable (i : Interner) (s : String)

/-- A string has a name, or it is appended. -/
theorem intern_cases :
    (∃ n, i.get? s = some n ∧ i.intern s = (n, i)) ∨
      (i.get? s = none ∧ (i.intern s).1 = ⟨i.size⟩ ∧
        (i.intern s).2.strings = i.strings ++ [s]) := by
  unfold intern
  split
  · rename_i n h
    exact .inl ⟨n, h, rfl⟩
  · rename_i h
    exact .inr ⟨h, rfl, rfl⟩

/-- A string that is met for the first time is appended. -/
theorem strings_intern_of_get?_eq_none {i : Interner} {s : String} (h : i.get? s = none) :
    (i.intern s).1 = ⟨i.size⟩ ∧ (i.intern s).2.strings = i.strings ++ [s] := by
  rcases i.intern_cases s with ⟨n, hn, -⟩ | ⟨-, hname, hstrings⟩
  · rw [h] at hn
    contradiction
  · exact ⟨hname, hstrings⟩

theorem lookup?_of_get? {i : Interner} {s : String} {n : Name} (h : i.get? s = some n) :
    i.lookup? n = some s := by
  obtain ⟨k, hk, rfl⟩ := Option.map_eq_some_iff.mp h
  obtain ⟨hlt, heq, -⟩ := List.idxOf?_eq_some_iff.mp hk
  rw [lookup?, List.getElem?_eq_getElem hlt, heq]

theorem extends_intern : (i.intern s).2.Extends i := by
  rcases i.intern_cases s with ⟨n, -, h⟩ | ⟨-, -, h⟩
  · rw [h]
    exact .refl i
  · rw [Extends, h]
    exact List.prefix_append _ _

/-- **The name of a string has that string.** -/
@[simp] theorem lookup?_intern : (i.intern s).2.lookup? (i.intern s).1 = some s := by
  rcases i.intern_cases s with ⟨n, hn, h⟩ | ⟨-, hn, h⟩
  · rw [h]
    exact lookup?_of_get? hn
  · rw [lookup?, hn, h]
    exact List.getElem?_concat_length

/-- **The string of a name has that name.** -/
theorem intern_of_lookup? {i : Interner} {s : String} {n : Name} (h : i.lookup? n = some s) :
    i.intern s = (n, i) := by
  obtain ⟨hlt, hs⟩ := List.getElem?_eq_some_iff.mp h
  rcases i.intern_cases s with ⟨m, hm, heq⟩ | ⟨hnone, -, -⟩
  · obtain ⟨hlt', hs'⟩ := List.getElem?_eq_some_iff.mp (lookup?_of_get? hm)
    -- no string is listed twice
    have hidx : m.index = n.index := (List.getElem_inj i.nodup).mp (hs'.trans hs.symm)
    rw [heq]
    exact congrArg (·, i) (congrArg Name.mk hidx)
  · exact absurd (hs ▸ List.getElem_mem hlt) (get?_eq_none_iff.mp hnone)

/-- No two names have the same string. -/
theorem lookup?_inj {i : Interner} {s : String} {n m : Name} (hn : i.lookup? n = some s)
    (hm : i.lookup? m = some s) : n = m :=
  congrArg Prod.fst ((intern_of_lookup? hn).symm.trans (intern_of_lookup? hm))

/-- Lists of names with the same strings are the same. -/
theorem map_lookup?_inj {i : Interner} : ∀ {l l' : List Name} {words : List String},
    l.map i.lookup? = words.map some → l'.map i.lookup? = words.map some → l = l'
  | [], [], _, _, _ => rfl
  | [], _ :: _, [], _, h => by simp at h
  | _ :: _, _, [], h, _ => by simp at h
  | [], _, _ :: _, h, _ => by simp at h
  | _ :: _, [], _ :: _, _, h => by simp at h
  | n :: l, m :: l', text :: words, h, h' => by
    simp only [List.map_cons, List.cons.injEq] at h h'
    rw [lookup?_inj h.1 h'.1, map_lookup?_inj h.2 h'.2]

theorem knows_of_lookup? {i : Interner} {n : Name} {s : String} (h : i.lookup? n = some s) :
    i.Knows n :=
  (List.getElem?_eq_some_iff.mp h).1

theorem lookup?_of_knows {i : Interner} {n : Name} (h : i.Knows n) :
    i.lookup? n = some (i.text n) := by
  have hget : i.lookup? n = some (i.strings.get ⟨n.index, h⟩) := List.getElem?_eq_getElem h
  rw [text, hget, Option.getD_some]

theorem lookup?_eq_some_iff {i : Interner} {n : Name} {s : String} :
    i.lookup? n = some s ↔ i.Knows n ∧ i.text n = s := by
  constructor
  · intro h
    exact ⟨knows_of_lookup? h, by rw [text, h, Option.getD_some]⟩
  · rintro ⟨h, rfl⟩
    exact lookup?_of_knows h

end Interner

/-! ## 2. Many strings -/

/-- A step that does no more to an interner than interning. -/
structure Interns {α : Type} (x : StateM Interner α) : Prop where
  grows : ∀ i, (x.run i).2.Extends i
  /-- Done again later, it yields the same and leaves the interner alone. -/
  again : ∀ i j, j.Extends (x.run i).2 → x.run j = ((x.run i).1, j)

namespace Interns

variable {α β : Type}

theorem pure (a : α) : Interns (pure a) where
  grows i := .refl i
  again _ _ _ := rfl

theorem intern (s : String) : Interns (modifyGet (·.intern s)) where
  grows i := i.extends_intern s
  again i _ h := Interner.intern_of_lookup? (h.lookup? (i.lookup?_intern s))

theorem bind {x : StateM Interner α} {f : α → StateM Interner β} (hx : Interns x)
    (hf : ∀ a, Interns (f a)) : Interns (x >>= f) where
  grows i := ((hf _).grows _).trans (hx.grows i)
  again i j h := by
    have hx' : x.run j = ((x.run i).1, j) := hx.again i j (h.trans ((hf _).grows _))
    have hf' : (f (x.run i).1).run j = (((f (x.run i).1).run (x.run i).2).1, j) :=
      (hf _).again _ j h
    calc (x >>= f).run j = (f (x.run j).1).run (x.run j).2 := rfl
      _ = (((f (x.run i).1).run (x.run i).2).1, j) := by rw [hx', hf']

theorem mapM {f : α → StateM Interner β} (hf : ∀ a, Interns (f a)) :
    ∀ l : List α, Interns (l.mapM f)
  | [] => pure []
  | a :: l => by
    rw [List.mapM_cons]
    exact bind (hf a) fun b => bind (mapM hf l) fun bs => pure (b :: bs)

end Interns

/-- Strings that are interned one after the other are those of their names. -/
theorem lookup?_run_mapM_intern {α : Type} (text : α → String) : ∀ (l : List α) (i : Interner),
    let r := (l.mapM fun a => (modifyGet (·.intern (text a)) : StateM Interner Name)).run i
    r.1.map r.2.lookup? = l.map fun a => some (text a)
  | [], _ => rfl
  | a :: l, i => by
    have hgrows := (Interns.mapM (fun a => .intern (text a)) l).grows (i.intern (text a)).2
    have hrest := lookup?_run_mapM_intern text l (i.intern (text a)).2
    have hfirst := hgrows.lookup? (i.lookup?_intern (text a))
    rw [run_mapM_cons]
    simp only [List.map_cons]
    exact List.cons_eq_cons.mpr ⟨hfirst, hrest⟩

/-! ## 3. The words of the expander -/

/-- The names in a vocabulary. -/
def Vocabulary.names (v : Vocabulary) : List Name :=
  [v.annotations.staged, v.annotations.runtime, v.annotations.deprecated, v.selfName, v.context,
    v.expr, v.weakTypeTag, v.callPrefix, v.tree, v.apply, v.list]

/-- The words whose names make up a vocabulary. -/
def Options.words (o : Options) : List String :=
  [o.spellings.staged, o.spellings.runtime, o.spellings.deprecated, o.selfName, "Context", "Expr",
    "WeakTypeTag", "prefix", "tree", "Apply", "List"]

/-- The words are interned one after the other. -/
theorem Vocabulary.names_intern (o : Options) :
    Vocabulary.names <$> Vocabulary.intern o =
      o.words.mapM fun s => (modifyGet (·.intern s) : StateM Interner Name) := by
  simp only [Options.words, List.mapM_cons, List.mapM_nil, Vocabulary.intern,
    AnnotationNames.intern, map_eq_pure_bind, bind_assoc, pure_bind, Vocabulary.names]

/-- **The names in a vocabulary are those of the words.** -/
theorem Vocabulary.lookup?_names {o : Options} {i j : Interner} {v : Vocabulary}
    (h : (Vocabulary.intern o).run i = (v, j)) : v.names.map j.lookup? = o.words.map some := by
  have hlookup := lookup?_run_mapM_intern (fun s => s) o.words i
  rwa [← names_intern, run_map_pair, h] at hlookup

theorem AnnotationNames.interns_intern (s : Spellings) : Interns (AnnotationNames.intern s) :=
  .bind (.intern _) fun _ => .bind (.intern _) fun _ => .bind (.intern _) fun _ => .pure _

/-- **A vocabulary that is interned again is the same.** -/
theorem Vocabulary.interns_intern (o : Options) : Interns (Vocabulary.intern o) :=
  .bind (AnnotationNames.interns_intern _) fun _ => .bind (.intern _) fun _ =>
    .bind (.intern _) fun _ => .bind (.intern _) fun _ => .bind (.intern _) fun _ =>
    .bind (.intern _) fun _ => .bind (.intern _) fun _ => .bind (.intern _) fun _ =>
    .bind (.intern _) fun _ => .pure _

/-- Whoever knows the words knows what was known before. -/
theorem Vocabulary.extends_of_intern {o : Options} {i j : Interner} {v : Vocabulary}
    (h : (Vocabulary.intern o).run i = (v, j)) : j.Extends i := by
  have hgrows := (Vocabulary.interns_intern o).grows i
  rwa [h] at hgrows

/-! ## 4. Numbered names -/

/-- Different numbers are written differently. -/
theorem toString_nat_inj {j k : Nat} (h : toString j = toString k) : j = k := by
  have hdigits : Nat.toDigits 10 j = Nat.toDigits 10 k := String.ofList_injective h
  calc j = Nat.ofDigitChars 10 (Nat.toDigits 10 j) 0 := Nat.ofDigitChars_ten_toDigits.symm
    _ = Nat.ofDigitChars 10 (Nat.toDigits 10 k) 0 := by rw [hdigits]
    _ = k := Nat.ofDigitChars_ten_toDigits

end Enrich
