import Enrich.Interner.Table
import Enrich.Proofs.Interning
import Enrich.Proofs.Runs
/-!
# Names and strings are one to one, for good

Whatever an interner is asked, and in whatever order, its strings stay distinct, a name and its
string find one another, and a name that was handed out keeps its string.

An `Interner` is one list, so there is nothing in it that could disagree.  Two tables can: each
request changes both or none of them, and only so do they go on saying the same.  `Represents` says
that two tables are those of an interner.  One request keeps it and is answered alike
(`InternTable.follows_serve`), hence so is every run of requests (`InternTable.follows_run`), and
what is said of the interner is said of the tables.

* `Interner.extends_run`: no request takes a string away from its name.
* `Interner.isBijection`: what holds of names and strings at any time.
* `Interner.isBijection_run`: so it is after any run, and of two tables too.
-/

namespace Enrich

/-! ## 1. One request -/

namespace Interner

/-- A name and its string find one another. -/
theorem get?_eq_some_iff {i : Interner} {s : String} {n : Name} :
    i.get? s = some n ↔ i.lookup? n = some s := by
  constructor
  · exact lookup?_of_get?
  · intro h
    have hintern := intern_of_lookup? h
    rcases i.intern_cases s with ⟨m, hm, heq⟩ | ⟨hnone, -, -⟩
    · rw [hm, show m = n from congrArg Prod.fst (heq.symm.trans hintern)]
    · obtain ⟨hlt, hs⟩ := List.getElem?_eq_some_iff.mp h
      exact absurd (hs ▸ List.getElem_mem hlt) (get?_eq_none_iff.mp hnone)

theorem isSome_lookup?_iff {i : Interner} {n : Name} : (i.lookup? n).isSome = true ↔ i.Knows n := by
  simp [lookup?, Knows, size]

theorem intern_of_get? {i : Interner} {s : String} {n : Name} (h : i.get? s = some n) :
    i.intern s = (n, i) :=
  intern_of_lookup? (get?_eq_some_iff.mp h)

/-- What is taken in is interned, or nothing is. -/
theorem run_take (i : Interner) (refused : InternOverflow → InternAnswer) (s : String) :
    (InternRequest.take tryIntern refused s).run i =
      if (i.get? s).isNone ∧ UInt32.size ≤ i.size then (refused ⟨i.size⟩, i)
      else (.name (i.intern s).1, (i.intern s).2) := by
  by_cases hfull : (i.get? s).isNone ∧ UInt32.size ≤ i.size
  · simp only [InternRequest.take, StateT.run, tryIntern, if_pos hfull]
  · simp only [InternRequest.take, StateT.run, tryIntern, if_neg hfull]

theorem extends_take (i : Interner) (refused : InternOverflow → InternAnswer) (s : String) :
    ((InternRequest.take tryIntern refused s).run i).2.Extends i := by
  rw [run_take]
  split
  · exact .refl i
  · exact i.extends_intern s

theorem extends_serve (i : Interner) : ∀ r : InternRequest, ((serve r).run i).2.Extends i
  | .intern s => i.extends_take _ s
  | .tryIntern s => i.extends_take _ s
  | .get _ => .refl i

/-- **No request takes a string away from its name**, at any later time. -/
theorem extends_run : ∀ (rs : List InternRequest) (i : Interner),
    ((rs.mapM serve).run i).2.Extends i
  | [], i => .refl i
  | r :: rs, i => by
    rw [run_mapM_cons]
    exact (extends_run rs _).trans (i.extends_serve r)

/-! ## 2. Names and strings -/

variable {i : Interner}

/-- What a request for the name of a string comes to. -/
theorem run_serve_of_interned? {r : InternRequest} {s : String} (hr : r.interned? = some s) :
    ∃ refused, (serve r).run i = (InternRequest.take tryIntern refused s).run i ∧
      ∀ e n, refused e ≠ .name n := by
  cases r with
  | intern s' =>
    obtain rfl := Option.some.inj hr
    exact ⟨_, rfl, by simp⟩
  | tryIntern s' =>
    obtain rfl := Option.some.inj hr
    exact ⟨_, rfl, by simp⟩
  | get s' => contradiction

/-- A name that is answered has the string that was asked for. -/
theorem lookup?_of_served {r : InternRequest} {s : String} {n : Name} {j : Interner}
    (hr : r.interned? = some s) (h : (serve r).run i = (.name n, j)) : j.lookup? n = some s := by
  obtain ⟨refused, htake, hrefused⟩ := run_serve_of_interned? (i := i) hr
  rw [htake, run_take] at h
  split at h
  · exact absurd (congrArg Prod.fst h) (hrefused _ n)
  · obtain ⟨rfl, rfl⟩ := Prod.mk.inj h |>.imp InternAnswer.name.inj id
    exact i.lookup?_intern s

/-- What holds of names and strings at any time, and of what is asked then and later. -/
structure IsBijection (i : Interner) : Prop where
  nodup : i.strings.Nodup
  lookup?_zero : i.lookup? ⟨0⟩ = some ""
  /-- The names that were handed out. -/
  isSome_lookup?_iff : ∀ n, (i.lookup? n).isSome = true ↔ n.index < i.size
  /-- A name and its string find one another. -/
  get?_iff : ∀ s n, i.get? s = some n ↔ i.lookup? n = some s
  /-- Looking for a string changes nothing. -/
  run_get : ∀ s, (serve (.get s)).run i = ((i.get? s).elim .absent .name, i)
  /-- Neither does asking for the name of a string that has one. -/
  run_known : ∀ r s n, r.interned? = some s → i.get? s = some n → (serve r).run i = (.name n, i)
  /-- Any other string is given the next name, if there is one left. -/
  run_unknown : ∀ r s, r.interned? = some s → i.get? s = none → i.size < UInt32.size →
    ∃ j, (serve r).run i = (.name ⟨i.size⟩, j) ∧ j.strings = i.strings ++ [s]
  /-- If there is none left, nothing changes. -/
  run_overflow : ∀ r s, r.interned? = some s → i.get? s = none → UInt32.size ≤ i.size →
    ((serve r).run i).2 = i
  /-- A name keeps its string, whatever is asked later. -/
  kept : ∀ (rs : List InternRequest) n s, i.lookup? n = some s →
    ((rs.mapM serve).run i).2.lookup? n = some s
  /-- Two strings, one of them later, are given one name exactly when they are the same. -/
  name_eq_iff : ∀ r s n j (rs : List InternRequest) r' s' n' j',
    r.interned? = some s → (serve r).run i = (.name n, j) →
    r'.interned? = some s' → (serve r').run ((rs.mapM serve).run j).2 = (.name n', j') →
    (n = n' ↔ s = s')

theorem isBijection (i : Interner) : i.IsBijection where
  nodup := i.nodup
  lookup?_zero := by
    rw [lookup?, ← List.head?_eq_getElem?, i.head?_eq]
  isSome_lookup?_iff n := isSome_lookup?_iff
  get?_iff s n := get?_eq_some_iff
  run_get s := rfl
  run_known r s n hr hn := by
    obtain ⟨refused, htake, -⟩ := run_serve_of_interned? (i := i) hr
    have hfound : ¬ ((i.get? s).isNone = true ∧ UInt32.size ≤ i.size) := by simp [hn]
    rw [htake, run_take, if_neg hfound, intern_of_get? hn]
  run_unknown r s hr hn hroom := by
    obtain ⟨refused, htake, -⟩ := run_serve_of_interned? (i := i) hr
    obtain ⟨hname, hstrings⟩ := strings_intern_of_get?_eq_none hn
    refine ⟨(i.intern s).2, ?_, hstrings⟩
    rw [htake, run_take, if_neg fun hfull => by omega, hname]
  run_overflow r s hr hn hfull := by
    obtain ⟨refused, htake, -⟩ := run_serve_of_interned? (i := i) hr
    rw [htake, run_take, if_pos ⟨by rw [hn]; rfl, hfull⟩]
  kept rs n s hn := (extends_run rs i).lookup? hn
  name_eq_iff r s n j rs r' s' n' j' hr h hr' h' := by
    have hn' : j'.lookup? n' = some s' := lookup?_of_served hr' h'
    have hn : j'.lookup? n = some s := by
      have hlater := (extends_run rs j).lookup? (lookup?_of_served hr h)
      have hgrown := extends_serve ((rs.mapM serve).run j).2 r'
      rw [h'] at hgrown
      exact hgrown.lookup? hlater
    constructor
    · rintro rfl
      exact Option.some.inj (hn.symm.trans hn')
    · rintro rfl
      rw [← get?_eq_some_iff] at hn hn'
      exact Option.some.inj (hn.symm.trans hn')

/-- A string that is taken in is found, and the others are found as before. -/
theorem get?_intern_of_get?_eq_none {s : String} (h : i.get? s = none) (s' : String) :
    (i.intern s).2.get? s' = if s' = s then some ⟨i.size⟩ else i.get? s' := by
  obtain ⟨hname, hstrings⟩ := strings_intern_of_get?_eq_none h
  split
  · rename_i heq
    rw [heq, ← hname, get?_eq_some_iff]
    exact i.lookup?_intern s
  · rename_i hne
    ext n
    rw [get?_eq_some_iff, get?_eq_some_iff, lookup?, lookup?, hstrings]
    by_cases hlt : n.index < i.strings.length
    · rw [List.getElem?_append_left hlt]
    · have hlast : [s][n.index - i.strings.length]? ≠ some s' := fun hmem =>
        hne (List.mem_singleton.mp (List.mem_of_getElem? hmem))
      rw [List.getElem?_append_right (by omega), List.getElem?_eq_none (l := i.strings) (by omega)]
      simpa using hlast

end Interner

/-! ## 3. Two tables -/

namespace InternTable

/-- The tables say what the interner says. -/
structure Represents (t : InternTable) (i : Interner) : Prop where
  strings : t.strings = i.strings
  get? : ∀ s, t.get? s = i.get? s

/-- The tables answer as the interner does, and say the same afterwards. -/
def Follows (t : InternTable) (i : Interner) {α : Type} (x : StateM InternTable α)
    (y : StateM Interner α) : Prop :=
  (x.run t).1 = (y.run i).1 ∧ (x.run t).2.Represents (y.run i).2

variable {t : InternTable} {i : Interner}

/-- Taking a string in changes both tables, or none of them. -/
theorem follows_take (h : t.Represents i) (refused : InternOverflow → InternAnswer) (s : String) :
    t.Follows i (InternRequest.take tryIntern refused s)
      (InternRequest.take Interner.tryIntern refused s) := by
  have hsize : t.size = i.size := congrArg List.length h.strings
  rw [Follows, Interner.run_take]
  cases hn : i.get? s with
  | some n =>
    simp only [InternRequest.take, StateT.run, tryIntern, h.get?, hn, Interner.intern_of_get? hn]
    simpa using h
  | none =>
    obtain ⟨hname, hstrings⟩ := Interner.strings_intern_of_get?_eq_none hn
    by_cases hroom : i.size < UInt32.size
    · have hnotfull : ¬ UInt32.size ≤ i.size := by omega
      simp only [InternRequest.take, StateT.run, tryIntern, h.get?, hn, hsize, if_pos hroom, hname,
        Option.isNone_none, true_and, if_neg hnotfull]
      refine ⟨by rw [push, h.strings, hstrings], fun s' => ?_⟩
      rw [Interner.get?_intern_of_get?_eq_none hn, get?, push, hsize, ← h.get?]
      rfl
    · have hfull : UInt32.size ≤ i.size := by omega
      simp only [InternRequest.take, StateT.run, tryIntern, h.get?, hn, hsize, if_neg hroom,
        Option.isNone_none, true_and, if_pos hfull]
      exact h

/-- **One request.** -/
theorem follows_serve (h : t.Represents i) (r : InternRequest) :
    t.Follows i (serve r) (Interner.serve r) := by
  cases r with
  | intern s => exact follows_take h _ s
  | tryIntern s => exact follows_take h _ s
  | get s =>
    refine ⟨?_, h⟩
    change (t.get? s).elim InternAnswer.absent .name = (i.get? s).elim .absent .name
    rw [h.get?]

/-- **A run of requests.** -/
theorem follows_run (h : t.Represents i) (rs : List InternRequest) :
    t.Follows i (rs.mapM serve) (rs.mapM Interner.serve) := by
  induction rs generalizing t i with
  | nil => exact ⟨rfl, h⟩
  | cons r rs ih =>
    obtain ⟨hanswer, hafter⟩ := follows_serve h r
    obtain ⟨hanswers, hend⟩ := ih hafter
    rw [Follows, run_mapM_cons, run_mapM_cons]
    exact ⟨by rw [hanswer, hanswers], hend⟩

theorem represents_new : new.Represents .new := by
  let blank : Interner := { strings := [""], nodup := by decide, head?_eq := rfl }
  have hblank : InternTable.blank.Represents blank := by
    refine ⟨rfl, fun s => ?_⟩
    by_cases hs : s = ""
    · subst hs
      rfl
    · have hnone : blank.get? s = none := by simpa [Interner.get?_eq_none_iff, blank] using hs
      rw [hnone]
      exact if_neg hs
  have hrun : (((Interner.initialStrings.tail.map .intern).mapM Interner.serve).run blank).2 =
      .new := by
    decide
  have h := (follows_run hblank (Interner.initialStrings.tail.map .intern)).2
  rwa [hrun] at h

end InternTable

/-- **Names and strings are one to one, for good.**  After any requests to a new interner, whatever
may be asked next or later finds it as `IsBijection` says; and two tables that were asked the same
have answered the same and are inverse to one another. -/
theorem Interner.isBijection_run (rs : List InternRequest) :
    let ran := (rs.mapM serve).run .new
    let tables := (rs.mapM InternTable.serve).run .new
    ran.2.IsBijection ∧ tables.1 = ran.1 ∧ tables.2.Represents ran.2 ∧
      ∀ s n, tables.2.get? s = some n ↔ tables.2.lookup? n = some s := by
  intro ran tables
  obtain ⟨hanswers, hend⟩ := InternTable.follows_run InternTable.represents_new rs
  refine ⟨ran.2.isBijection, hanswers, hend, fun s n => ?_⟩
  rw [hend.get?, get?_eq_some_iff, lookup?, InternTable.lookup?, hend.strings]

end Enrich
