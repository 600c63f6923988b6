import Enrich.Proofs.Checks
import Enrich.Proofs.Freshness
import Mathlib.Order.Bounds.Basic
/-!
# The search for a number

A name supply knows beforehand how far it has to look for a number (`NameSupply.next`).  A program
that generates a name does not: it goes round.  In a turn it raises its counter by one and looks
whether the candidate with that number is interned.  If it is, the next turn begins; if not, the
candidate is taken in and is the name.  There is nothing in a turn from which one could tell that
there will be a last one, and whoever fills the interner with names that look generated can make the
search go on for long.

But a turn that goes on leaves the interner as it is.  So the turns go through the numbers one by one
until the first that is free (`NameSupply.ends_of_isLeast`), and that one cannot be far, for the
numbers passed over have different candidates, all of them interned (`NameSupply.next_le`).

* `NameSupply.isLeast_next`: the number that a supply answers is the least that is free.
* `NameSupply.Ends.unique`: a search ends in one way at most.
* `NameSupply.fresh_ends`: the main statement.
-/

namespace Enrich

namespace NameSupply

variable {s : NameSupply} {hint : String}

/-! ## 1. The least free number -/

/-- The numbers above the counter whose candidates are not interned. -/
def freeNumbers (s : NameSupply) (hint : String) : Set Nat :=
  {k | s.counter < k ∧ s.interner.get? (candidate hint k) = none}

/-- **A supply answers the least free number.** -/
theorem isLeast_next (s : NameSupply) (hint : String) :
    IsLeast (s.freeNumbers hint) (s.next hint) := by
  refine ⟨⟨s.counter_lt_next hint, s.get?_candidate_next hint⟩, ?_⟩
  rintro k ⟨habove, hfree⟩
  by_contra hlt
  -- the search would have met `k` before it came to its answer
  have hmet := (List.find?_range'_eq_some.mp (s.find?_next hint)).2.2 k (by omega) (by omega)
  simp [hfree] at hmet

/-- There is a free number among the next ones, one more of them than there are strings. -/
theorem next_le (s : NameSupply) (hint : String) :
    s.next hint ≤ s.counter + s.interner.size + 1 := by
  have hmem := List.mem_range'_1.mp (List.mem_of_find?_eq_some (s.find?_next hint))
  omega

/-! ## 2. Turn by turn -/

/-- One turn: the counter goes up by one, and the candidate with that number is taken in unless it
is interned.  Both the counter and the names have thirty-two bits. -/
def turn (hint : String) (s : NameSupply) : Except Stop (Option Name × NameSupply) :=
  let k := s.counter + 1
  if UInt32.size ≤ k then .error .counterFull
  else if (s.interner.get? (candidate hint k)).isSome then .ok (none, { s with counter := k })
  else
    match s.interner.tryIntern (candidate hint k) with
    | .ok (n, interner) => .ok (some n, { interner, counter := k })
    | .error e => .error (.internerFull e)

/-- The search ends, after that many turns, with that name and supply. -/
inductive Ends (hint : String) : NameSupply → Nat → Name × NameSupply → Prop where
  | found {s s' : NameSupply} {n : Name} (h : turn hint s = .ok (some n, s')) :
    Ends hint s 1 (n, s')
  | passed {s s' : NameSupply} {turns : Nat} {r : Name × NameSupply}
    (h : turn hint s = .ok (none, s')) (hrest : Ends hint s' turns r) :
    Ends hint s (turns + 1) r

/-- **A search ends in one way at most.** -/
theorem Ends.unique {turns turns' : Nat} {r r' : Name × NameSupply} (h : Ends hint s turns r)
    (h' : Ends hint s turns' r') : turns = turns' ∧ r = r' := by
  induction h generalizing turns' with
  | found hturn =>
    cases h' with
    | found hturn' =>
      rw [hturn] at hturn'
      simpa using hturn'
    | passed hturn' =>
      rw [hturn] at hturn'
      simp at hturn'
  | passed hturn _ ih =>
    cases h' with
    | found hturn' =>
      rw [hturn] at hturn'
      simp at hturn'
    | passed hturn' hrest' =>
      obtain rfl : _ = _ := congrArg Prod.snd (Except.ok.inj (hturn.symm.trans hturn'))
      obtain ⟨rfl, rfl⟩ := ih hrest'
      exact ⟨rfl, rfl⟩

section

variable (hroom : s.counter + 1 < UInt32.size)
include hroom

/-- A number whose candidate is interned is passed over. -/
theorem turn_of_interned (h : s.interner.get? (candidate hint (s.counter + 1)) ≠ none) :
    turn hint s = .ok (none, { s with counter := s.counter + 1 }) := by
  rw [turn, if_neg (Nat.not_le_of_lt hroom), if_pos (Option.isSome_iff_ne_none.mpr h)]

/-- A candidate that is not interned is taken in, if there is room for it. -/
theorem turn_of_free (h : s.interner.get? (candidate hint (s.counter + 1)) = none)
    (hsize : s.interner.size < UInt32.size) :
    let taken := s.interner.intern (candidate hint (s.counter + 1))
    turn hint s = .ok (some taken.1, { interner := taken.2, counter := s.counter + 1 }) := by
  intro taken
  have htaken : s.interner.tryIntern (candidate hint (s.counter + 1)) = .ok taken :=
    if_neg fun hfull => Nat.not_le_of_lt hsize hfull.2
  rw [turn, if_neg (Nat.not_le_of_lt hroom), h, if_neg (by simp), htaken]

end

/-- **The turns go through the numbers one by one**, until the first that is free. -/
theorem ends_of_isLeast {passed : Nat}
    (hleast : IsLeast (s.freeNumbers hint) (s.counter + passed + 1))
    (hroom : s.counter + passed + 1 < UInt32.size) (hsize : s.interner.size < UInt32.size) :
    let taken := s.interner.intern (candidate hint (s.counter + passed + 1))
    Ends hint s (passed + 1)
      (taken.1, { interner := taken.2, counter := s.counter + passed + 1 }) := by
  induction passed generalizing s with
  | zero => exact .found (turn_of_free hroom hleast.1.2 hsize)
  | succ passed ih =>
    let s' : NameSupply := { s with counter := s.counter + 1 }
    have hinterned : s.interner.get? (candidate hint (s.counter + 1)) ≠ none := fun hfree => by
      have := hleast.2 ⟨Nat.lt_succ_self s.counter, hfree⟩
      omega
    have hturn : turn hint s = .ok (none, s') := turn_of_interned (by omega) hinterned
    -- the number that is looked for is the same, with one turn less before it
    have hnumber : s.counter + (passed + 1) + 1 = s'.counter + passed + 1 :=
      congrArg (· + 1) (Nat.add_right_comm s.counter passed 1)
    rw [hnumber] at hleast hroom ⊢
    have hleast' : IsLeast (s'.freeNumbers hint) (s'.counter + passed + 1) :=
      ⟨⟨by omega, hleast.1.2⟩, fun j hj => hleast.2 ⟨Nat.lt_of_succ_lt hj.1, hj.2⟩⟩
    exact .passed hturn (ih hleast' hroom hsize)

/-! ## 3. The main statement -/

/-- **The search ends, and no number is passed over without need.**  From any supply whose counter
and strings leave room for as many turns, and for any hint, the search ends after at most one turn
more than there are strings, and in no other way.  Its number is the least above the counter whose
candidate was not interned.  That is the counter afterwards; the name is that of the candidate, and
the candidate is all that is added to the strings. -/
theorem fresh_ends (s : NameSupply) (hint : String)
    (hroom : s.counter + s.interner.size + 1 < UInt32.size) :
    ∃ k turns n s', IsLeast {k | s.counter < k ∧ candidate hint k ∉ s.interner.strings} k ∧
      turns = k - s.counter ∧ turns ≤ s.interner.size + 1 ∧
      (∀ turns' r, Ends hint s turns' r ↔ turns' = turns ∧ r = (n, s')) ∧
      s.fresh hint = (n, s') ∧ s'.counter = k ∧ s'.interner.lookup? n = some (candidate hint k) ∧
      s'.interner.strings = s.interner.strings ++ [candidate hint k] := by
  have hleast := s.isLeast_next hint
  have hle := s.next_le hint
  obtain ⟨passed, hpassed⟩ := Nat.exists_eq_add_of_lt hleast.1.1
  have hends : Ends hint s (passed + 1) (s.fresh hint) := by
    have h := ends_of_isLeast (hpassed ▸ hleast) (by omega) (by omega)
    rwa [← hpassed] at h
  refine ⟨s.next hint, passed + 1, (s.fresh hint).1, (s.fresh hint).2, ?_, by omega, by omega, ?_,
    rfl, rfl, Interner.lookup?_intern _ _, (s.fresh_spec hint).2⟩
  · simpa only [freeNumbers, Interner.get?_eq_none_iff] using hleast
  · intro turns r
    constructor
    · exact fun h => h.unique hends
    · rintro ⟨rfl, rfl⟩
      exact hends

/-- A hint that looks generated itself, in an interner where the next two numbers are taken. -/
theorem fresh_ends_taken :
    let i := ((Interner.new.intern "f$1$5").2.intern "f$1$6").2
    let s : NameSupply := { interner := i, counter := 4 }
    s.counter + s.interner.size + 1 < UInt32.size ∧
      ∃ n s', Ends "f$1" s 3 (n, s') ∧ s'.counter = 7 ∧ s'.interner.lookup? n = some "f$1$7" := by
  intro i s
  have hroom : s.counter + s.interner.size + 1 < UInt32.size := by decide +kernel
  have hnext : s.next "f$1" = 7 := by decide +kernel
  obtain ⟨k, turns, n, s', hleast, rfl, -, hends, -, hcounter, hlookup, -⟩ :=
    fresh_ends s "f$1" hroom
  have hseven := s.isLeast_next "f$1"
  simp only [freeNumbers, Interner.get?_eq_none_iff, hnext] at hseven
  obtain rfl : k = 7 := IsLeast.unique hleast hseven
  exact ⟨hroom, n, s', (hends _ _).mpr ⟨rfl, rfl⟩, hcounter, hlookup⟩

end NameSupply

end Enrich
