import Enrich.Interner
/-!
# An interner as two tables

An `Interner` is a list, and finds a string by searching it.  A program that is asked often keeps a
second table, from the strings to their positions, and changes the two together.  `InternTable` is
that pair, with nothing to say that the tables fit.

Names are numbers of thirty-two bits, so there may be none left for a new string.  Who asks for a
name by `intern` cannot go on then; who asks by `tryIntern` is told.

* `InternRequest.serve`: what is answered to a request, for anything that can find and take in.
-/

namespace Enrich

/-! ## 1. Room for names -/

/-- There is no name left for one more string. -/
structure InternOverflow where
  /-- How many strings have one. -/
  count : Nat
deriving DecidableEq, Repr

def InternOverflow.message (e : InternOverflow) : String :=
  "interner exceeded capacity: " ++ toString e.count ++ " strings, max is "
    ++ toString (UInt32.size - 1)

/-- The name of a string, if it has one or there is one left for it. -/
def Interner.tryIntern (i : Interner) (s : String) : Except InternOverflow (Name × Interner) :=
  if (i.get? s).isNone ∧ UInt32.size ≤ i.size then .error ⟨i.size⟩ else .ok (i.intern s)

/-! ## 2. Requests -/

/-- What an interner is asked. -/
inductive InternRequest where
  /-- The name of a string, without which the caller cannot go on. -/
  | intern (s : String)
  /-- The name of a string. -/
  | tryIntern (s : String)
  /-- The name of a string that was met before. -/
  | get (s : String)
deriving DecidableEq, Repr

/-- The string that is given a name. -/
def InternRequest.interned? : InternRequest → Option String
  | .intern s | .tryIntern s => some s
  | .get _ => none

/-- What is answered. -/
inductive InternAnswer where
  | name (n : Name)
  /-- The string was not met before. -/
  | absent
  /-- There is no name left, as the caller is told. -/
  | overflow (e : InternOverflow)
  /-- There is no name left, and the caller cannot go on. -/
  | panic (message : String)
deriving DecidableEq, Repr

section

variable {σ : Type} (get? : σ → String → Option Name)
  (tryIntern : σ → String → Except InternOverflow (Name × σ))

/-- Takes a string in and answers its name, or `refused` if there is none left. -/
def InternRequest.take (refused : InternOverflow → InternAnswer) (s : String) :
    StateM σ InternAnswer := fun state =>
  match tryIntern state s with
  | .ok (n, state) => (.name n, state)
  | .error e => (refused e, state)

/-- Answers a request, given how strings are found and how they are taken in. -/
def InternRequest.serve : InternRequest → StateM σ InternAnswer
  | .intern s => take tryIntern (fun e => .panic e.message) s
  | .tryIntern s => take tryIntern .overflow s
  | .get s => fun state => ((get? state s).elim .absent .name, state)

end

/-- Answers a request. -/
def Interner.serve : InternRequest → StateM Interner InternAnswer :=
  InternRequest.serve get? tryIntern

/-! ## 3. Two tables -/

/-- The names of strings, and the strings of names. -/
structure InternTable where
  names : String → Option Name
  strings : List String

namespace InternTable

/-- How many strings have a name. -/
def size (t : InternTable) : Nat := t.strings.length

def get? (t : InternTable) (s : String) : Option Name := t.names s

def lookup? (t : InternTable) (n : Name) : Option String := t.strings[n.index]?

/-- Takes a string into both tables, under the next name. -/
def push (t : InternTable) (s : String) : InternTable where
  names := fun s' => if s' = s then some ⟨t.size⟩ else t.names s'
  strings := t.strings ++ [s]

/-- The name of a string, if it has one or there is one left for it. -/
def tryIntern (t : InternTable) (s : String) : Except InternOverflow (Name × InternTable) :=
  match t.get? s with
  | some n => .ok (n, t)
  | none => if t.size < UInt32.size then .ok (⟨t.size⟩, t.push s) else .error ⟨t.size⟩

/-- Answers a request. -/
def serve : InternRequest → StateM InternTable InternAnswer :=
  InternRequest.serve get? tryIntern

/-- Tables that hold the empty string, under the name zero. -/
def blank : InternTable where
  names := fun s => if s = "" then some ⟨0⟩ else none
  strings := [""]

/-- The tables that every use starts with: blank ones that were asked for the other initial strings,
one after the other. -/
def new : InternTable :=
  (((Interner.initialStrings.tail.map .intern).mapM serve).run blank).2

end InternTable

end Enrich
