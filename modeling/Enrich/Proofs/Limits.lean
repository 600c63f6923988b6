import Enrich.Session.Config
import Mathlib.Data.List.Basic
import Mathlib.Data.List.TakeWhile
import Mathlib.Data.Nat.Digits.Defs
/-!
# Which texts set the error limit

The limit of errors can be written in the environment.  `Text.WritesNumber` says how a number is
written, by what stands in the text from left to right: blanks, a plus sign or none, digits, blanks.
Nothing is said there of how such a text is read.  It is read by dropping the blanks at both ends,
then the sign, and by taking the rest for digits.  Both ways come to the same because neither a sign
nor a digit is blank, so what is left between the blanks is determined (`Text.trim_eq_iff`).

The number has to fit into sixty-four bits.  Who has no larger numbers cannot find that out at the
end.  `Text.readWord` goes digit by digit and gives up at the first product or sum that is too large.
As the number never gets smaller on the way, it gives up exactly if the whole is too large, however
many zeros come first (`Text.readWord_eq_some_iff`).

* `parseLimit_eq_some_iff`: a limit is read from the texts that write one.
* `Config.ofLookup_reads`: the main statement.
-/

namespace Enrich

namespace Text

/-! ## 1. Between the blanks -/

theorem dropWhile_isBlank {before core : List Char} (hbefore : ∀ c ∈ before, isBlank c = true)
    (hcore : ∀ c ∈ core.head?, isBlank c = false) : (before ++ core).dropWhile isBlank = core := by
  rw [List.dropWhile_append_of_pos hbefore]
  cases core with
  | nil => rfl
  | cons c core => simp [hcore c rfl]

/-- What `dropWhile` leaves does not begin with a blank. -/
theorem isBlank_head?_dropWhile (cs : List Char) :
    ∀ c ∈ (cs.dropWhile isBlank).head?, isBlank c = false := by
  intro c hc
  have h := List.head?_dropWhile_not isBlank cs
  rwa [hc] at h

/-- **What is left of a text stands between blanks**, and neither begins nor ends with one. -/
theorem trim_eq_iff {cs core : List Char} :
    trim cs = core ↔ ∃ before after, cs = before ++ (core ++ after) ∧
      (∀ c ∈ before, isBlank c = true) ∧ (∀ c ∈ after, isBlank c = true) ∧
      (∀ c ∈ core.head?, isBlank c = false) ∧ ∀ c ∈ core.getLast?, isBlank c = false := by
  constructor
  · rintro rfl
    let rest := cs.dropWhile isBlank
    have hrest : rest = trim cs ++ (rest.reverse.takeWhile isBlank).reverse := by
      rw [trim, ← List.reverse_append, List.takeWhile_append_dropWhile, List.reverse_reverse]
    refine ⟨cs.takeWhile isBlank, (rest.reverse.takeWhile isBlank).reverse, ?_, ?_, ?_, ?_, ?_⟩
    · rw [← hrest, List.takeWhile_append_dropWhile]
    · exact fun c hc => List.mem_takeWhile_imp hc
    · exact fun c hc => List.mem_takeWhile_imp (List.mem_reverse.mp hc)
    · intro c hc
      refine isBlank_head?_dropWhile cs c ?_
      change c ∈ rest.head?
      rw [hrest, List.head?_append, hc]
      rfl
    · rw [trim, List.getLast?_reverse]
      exact isBlank_head?_dropWhile _
  · rintro ⟨before, after, rfl, hbefore, hafter, hhead, hlast⟩
    rcases core.eq_nil_or_concat' with rfl | ⟨front, c, rfl⟩
    · have hblank : ∀ c ∈ before ++ after, isBlank c = true := by
        simpa [or_imp, forall_and] using ⟨hbefore, hafter⟩
      simp [trim, List.dropWhile_eq_nil_iff.mpr hblank]
    · have hfront : ∀ d ∈ ((front ++ [c]) ++ after).head?, isBlank d = false := by
        cases front <;> simpa using hhead
      have hback : ∀ d ∈ ((front ++ [c]).reverse).head?, isBlank d = false := by
        simpa using hlast
      rw [trim, dropWhile_isBlank hbefore hfront, List.reverse_append,
        dropWhile_isBlank (by simpa using hafter) hback, List.reverse_reverse]

/-! ## 2. Numbers in writing -/

/-- What a digit stands for. -/
def digitValue (c : Char) : Nat := c.toNat - '0'.toNat

/-- The number that decimal digits stand for, the last digit for the ones. -/
def digitsValue (digits : List Char) : Nat := Nat.ofDigits 10 (digits.reverse.map digitValue)

/-- The text writes the number: blanks, a plus sign or none, one digit or more, blanks. -/
def WritesNumber (cs : List Char) (n : Nat) : Prop :=
  ∃ before sign digits after, cs = before ++ ((sign ++ digits) ++ after) ∧
    (∀ c ∈ before, isBlank c = true) ∧ (∀ c ∈ after, isBlank c = true) ∧
    (sign = [] ∨ sign = ['+']) ∧ digits ≠ [] ∧ (∀ c ∈ digits, c.isDigit = true) ∧
    digitsValue digits = n

/-- Digits are read from left to right. -/
theorem foldl_digits (digits : List Char) :
    digits.foldl (fun n c => 10 * n + digitValue c) 0 = digitsValue digits := by
  rw [digitsValue, List.foldl_eq_foldr_reverse]
  induction digits.reverse with
  | nil => rfl
  | cons c cs ih => rw [List.foldr_cons, ih, List.map_cons, Nat.ofDigits_cons, Nat.add_comm]

/-- Digits are in one run of the ASCII table. -/
theorem toNat_of_isDigit {c : Char} (h : c.isDigit = true) : 48 ≤ c.toNat ∧ c.toNat ≤ 57 := by
  simpa [Char.isDigit, UInt32.le_iff_toNat_le] using h

theorem isBlank_of_isDigit {c : Char} (h : c.isDigit = true) : isBlank c = false := by
  have houtside : ∀ n ∈ blanks, n < 48 ∨ 57 < n := by decide
  have hrange := toNat_of_isDigit h
  rw [isBlank, ← Bool.not_eq_true, List.contains_iff_mem]
  intro hmem
  have := houtside _ hmem
  omega

/-- What follows a plus sign, if there is one in front. -/
def withoutSign : List Char → List Char
  | '+' :: cs => cs
  | cs => cs

theorem exists_sign (cs : List Char) :
    ∃ sign, (sign = [] ∨ sign = ['+']) ∧ cs = sign ++ withoutSign cs := by
  unfold withoutSign
  split
  · exact ⟨['+'], .inr rfl, rfl⟩
  · exact ⟨[], .inl rfl, rfl⟩

theorem withoutSign_append {sign digits : List Char} (hsign : sign = [] ∨ sign = ['+'])
    (hdigits : ∀ c ∈ digits, c.isDigit = true) : withoutSign (sign ++ digits) = digits := by
  rcases hsign with rfl | rfl
  · unfold withoutSign
    split
    · rename_i heq
      have hmem : '+' ∈ [] ++ digits := heq ▸ List.mem_cons_self
      exact absurd (hdigits '+' hmem) (by decide)
    · rfl
  · rfl

/-- **Where there is a number in writing**: after the sign, between the blanks. -/
theorem writesNumber_iff {cs : List Char} {n : Nat} :
    WritesNumber cs n ↔
      let digits := withoutSign (trim cs)
      digits ≠ [] ∧ (∀ c ∈ digits, c.isDigit = true) ∧ digitsValue digits = n := by
  constructor
  · rintro ⟨before, sign, digits, after, hcs, hbefore, hafter, hsign, hne, hdigits, hvalue⟩
    have htrim : trim cs = sign ++ digits := by
      refine trim_eq_iff.mpr ⟨before, after, hcs, hbefore, hafter, fun c hc => ?_, fun c hc => ?_⟩
      · rcases hsign with rfl | rfl
        · exact isBlank_of_isDigit (hdigits c (List.mem_of_mem_head? hc))
        · obtain rfl : '+' = c := by simpa using hc
          decide
      · rw [List.getLast?_append_of_ne_nil _ hne] at hc
        exact isBlank_of_isDigit (hdigits c (List.mem_of_mem_getLast? hc))
    rw [htrim, withoutSign_append hsign hdigits]
    exact ⟨hne, hdigits, hvalue⟩
  · rintro ⟨hne, hdigits, hvalue⟩
    obtain ⟨before, after, hcs, hbefore, hafter, -⟩ := trim_eq_iff.mp (Eq.refl (trim cs))
    obtain ⟨sign, hsign, htrim⟩ := exists_sign (trim cs)
    rw [htrim] at hcs
    exact ⟨before, sign, _, after, hcs, hbefore, hafter, hsign, hne, hdigits, hvalue⟩

/-! ## 3. Numbers in words -/

/-- The product, if it fits into a word. -/
def mulWord (a b : UInt64) : Option UInt64 :=
  if a.toNat * b.toNat < UInt64.size then some (a * b) else none

/-- The sum, if it fits into a word. -/
def addWord (a b : UInt64) : Option UInt64 :=
  if a.toNat + b.toNat < UInt64.size then some (a + b) else none

/-- Reads one more digit. -/
def readDigit (w : UInt64) (c : Char) : Option UInt64 :=
  if c.isDigit then do addWord (← mulWord 10 w) (digitValue c).toUInt64 else none

/-- Reads digits from left to right, as long as what has been read fits into a word. -/
def readWord (digits : List Char) : Option UInt64 :=
  if digits.isEmpty then none else digits.foldlM readDigit 0

theorem mulWord_eq_some_iff {a b w : UInt64} :
    mulWord a b = some w ↔ a.toNat * b.toNat = w.toNat := by
  unfold mulWord
  split
  · rename_i hfits
    rw [Option.some.injEq, ← UInt64.toNat_inj, UInt64.toNat_mul, Nat.mod_eq_of_lt hfits]
  · rename_i hlarge
    exact ⟨fun h => absurd h (by simp), fun h => absurd (h ▸ w.toNat_lt) hlarge⟩

theorem addWord_eq_some_iff {a b w : UInt64} :
    addWord a b = some w ↔ a.toNat + b.toNat = w.toNat := by
  unfold addWord
  split
  · rename_i hfits
    rw [Option.some.injEq, ← UInt64.toNat_inj, UInt64.toNat_add, Nat.mod_eq_of_lt hfits]
  · rename_i hlarge
    exact ⟨fun h => absurd h (by simp), fun h => absurd (h ▸ w.toNat_lt) hlarge⟩

/-- A digit is read if the number with it is a word. -/
theorem readDigit_eq_some_iff {w w' : UInt64} {c : Char} :
    readDigit w c = some w' ↔ c.isDigit = true ∧ 10 * w.toNat + digitValue c = w'.toNat := by
  unfold readDigit
  split
  · rename_i hc
    have hrange := toNat_of_isDigit hc
    have hdigit : (digitValue c).toUInt64.toNat = digitValue c :=
      Nat.mod_eq_of_lt (by rw [digitValue]; omega)
    have hten : (10 : UInt64).toNat = 10 := rfl
    simp only [Option.bind_eq_bind, Option.bind_eq_some_iff, mulWord_eq_some_iff,
      addWord_eq_some_iff, hdigit, hten, hc, true_and]
    constructor
    · rintro ⟨product, hproduct, hsum⟩
      rw [hproduct, hsum]
    · intro hsum
      have hlt := w'.toNat_lt
      have hproduct : (10 * w.toNat).toUInt64.toNat = 10 * w.toNat := Nat.mod_eq_of_lt (by omega)
      exact ⟨(10 * w.toNat).toUInt64, hproduct.symm, by rw [hproduct, hsum]⟩
  · rename_i hc
    simp [hc]

/-- What is read never gets smaller. -/
theorem le_foldl_digits (digits : List Char) :
    ∀ n, n ≤ digits.foldl (fun n c => 10 * n + digitValue c) n := by
  induction digits with
  | nil => exact fun n => Nat.le_refl n
  | cons c cs ih =>
    intro n
    have := ih (10 * n + digitValue c)
    rw [List.foldl_cons]
    omega

theorem foldlM_readDigit_eq_some_iff {digits : List Char} {w w' : UInt64} :
    digits.foldlM readDigit w = some w' ↔ (∀ c ∈ digits, c.isDigit = true) ∧
      digits.foldl (fun n c => 10 * n + digitValue c) w.toNat = w'.toNat := by
  induction digits generalizing w with
  | nil => simp [UInt64.toNat_inj]
  | cons c cs ih =>
    simp only [List.foldlM_cons, Option.bind_eq_bind, Option.bind_eq_some_iff,
      readDigit_eq_some_iff, ih, List.forall_mem_cons, List.foldl_cons]
    constructor
    · rintro ⟨next, ⟨hc, hnext⟩, hcs, hvalue⟩
      exact ⟨⟨hc, hcs⟩, by rw [hnext, hvalue]⟩
    · rintro ⟨⟨hc, hcs⟩, hvalue⟩
      -- what has been read so far is a word, for it is no more than the whole
      have hle := le_foldl_digits cs (10 * w.toNat + digitValue c)
      have hlt := w'.toNat_lt
      have hnext : (10 * w.toNat + digitValue c).toUInt64.toNat = 10 * w.toNat + digitValue c :=
        Nat.mod_eq_of_lt (by omega)
      exact ⟨_, ⟨hc, hnext.symm⟩, hcs, by rw [hnext, hvalue]⟩

/-- **Reading gives up exactly if the whole is too large**, or if there is something that is no
digit. -/
theorem readWord_eq_some_iff {digits : List Char} {w : UInt64} :
    readWord digits = some w ↔
      digits ≠ [] ∧ (∀ c ∈ digits, c.isDigit = true) ∧ digitsValue digits = w.toNat := by
  unfold readWord
  cases digits with
  | nil => simp
  | cons c cs =>
    rw [if_neg (by simp), foldlM_readDigit_eq_some_iff, ← foldl_digits]
    simp

end Text

/-! ## 4. The main statement -/

/-- **A limit is read from the texts that write one.** -/
theorem parseLimit_eq_some_iff {s : String} {n : Nat} :
    parseLimit s = some n ↔ Text.WritesNumber s.toList n ∧ n < UInt64.size := by
  let digits := Text.withoutSign (Text.trim s.toList)
  have hread : parseLimit s =
      if digits.isEmpty || !digits.all Char.isDigit then none
      else
        let value := digits.foldl (fun n c => 10 * n + Text.digitValue c) 0
        if value < UInt64.size then some value else none := rfl
  have hvalid : (digits.isEmpty || !digits.all Char.isDigit) = true ↔
      ¬ (digits ≠ [] ∧ ∀ c ∈ digits, c.isDigit = true) := by
    rw [Bool.or_eq_true, List.isEmpty_iff, Bool.not_eq_true', ← Bool.not_eq_true, List.all_eq_true,
      Classical.not_and_iff_not_or_not, not_not]
  rw [hread, Text.foldl_digits, Text.writesNumber_iff]
  by_cases hdigits : digits ≠ [] ∧ ∀ c ∈ digits, c.isDigit = true
  · rw [if_neg fun h => hvalid.mp h hdigits]
    simp only [Option.ite_none_right_eq_some, Option.some.injEq]
    constructor
    · rintro ⟨hfits, rfl⟩
      exact ⟨⟨hdigits.1, hdigits.2, rfl⟩, hfits⟩
    · rintro ⟨⟨-, -, rfl⟩, hfits⟩
      exact ⟨hfits, rfl⟩
  · rw [if_pos (hvalid.mpr hdigits)]
    refine ⟨fun h => absurd h (by simp), ?_⟩
    rintro ⟨⟨hne, hall, -⟩, -⟩
    exact absurd ⟨hne, hall⟩ hdigits

/-- A limit can be read without larger numbers. -/
theorem parseLimit_eq_readWord (s : String) :
    parseLimit s = (Text.readWord (Text.withoutSign (Text.trim s.toList))).map UInt64.toNat := by
  ext n
  rw [parseLimit_eq_some_iff, Text.writesNumber_iff, Option.map_eq_some_iff]
  simp only [Text.readWord_eq_some_iff]
  constructor
  · rintro ⟨⟨hne, hdigits, rfl⟩, hfits⟩
    have hword : (Nat.toUInt64 _).toNat = _ := Nat.mod_eq_of_lt hfits
    exact ⟨_, ⟨hne, hdigits, hword.symm⟩, hword⟩
  · rintro ⟨w, ⟨hne, hdigits, hvalue⟩, rfl⟩
    exact ⟨⟨hne, hdigits, hvalue⟩, w.toNat_lt⟩

/-- An environment that notes what it is asked for. -/
def asking (env : String → Option String) (key : String) :
    StateM (List String) (Option String) := do
  modify (· ++ [key])
  return env key

/-- **The error limit is the one that is written in the environment**, and nothing else is asked for
or changed.  A text gives a limit exactly if it writes a number of at most sixty-four bits, which can
be read without larger numbers.  If it gives none, or if there is no text, everything stays as it is
by default. -/
theorem Config.ofLookup_reads (env : String → Option String) (asked : List String) :
    ∃ config, (ofLookup (asking env)).run asked = (config, asked ++ ["EXT_ERROR_LIMIT"]) ∧
      match env "EXT_ERROR_LIMIT" with
      | none => config = {}
      | some s =>
        config = (parseLimit s).elim {} (fun n => { queue.errorLimit := n }) ∧
          (∀ n, parseLimit s = some n ↔ Text.WritesNumber s.toList n ∧ n ≤ 2 ^ 64 - 1) ∧
          parseLimit s =
            (Text.readWord (Text.withoutSign (Text.trim s.toList))).map UInt64.toNat := by
  refine ⟨ofLimit (env "EXT_ERROR_LIMIT"), rfl, ?_⟩
  cases env "EXT_ERROR_LIMIT" with
  | none => rfl
  | some s =>
    refine ⟨?_, fun n => ?_, parseLimit_eq_readWord s⟩
    · rw [ofLimit, Option.bind_some]
      cases parseLimit s <;> rfl
    · rw [parseLimit_eq_some_iff]
      exact and_congr_right fun _ => Nat.lt_iff_le_pred (by decide)

/-- Zeros do not count; the largest number is read, and the next is not. -/
example :
    parseLimit " +000018446744073709551615\t" = some (2 ^ 64 - 1) ∧
      parseLimit "18446744073709551616" = none ∧ parseLimit "+" = none ∧
      parseLimit "1 2" = none := by decide +kernel

end Enrich
