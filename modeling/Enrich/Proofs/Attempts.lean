import Enrich.Proofs.Unwritten
import Enrich.Session.Basic
/-!
# What a host is called on

Generated code is offered to a host without its attached types first, and once more as it is if the
host refused it.  To say on which trees a host is called, a host that answers by the tree alone is
made to note the trees it is called on.  A failure has the tree in writing, and as attached types are
not written, this is the text of both trees.

* `attempts_compile`: the attempts made for one tree.
* `compileReified_attempts`: the main statement.
-/

namespace Enrich

/-! ## 1. The attempts for one tree -/

section

variable {ε γ : Type}

/-- A host that answers by the tree alone and notes the trees it is called on. -/
def noting (host : Tree → Except ε γ) (t : Tree) : StateM (List Tree) (Except ε γ) := do
  modify (· ++ [t])
  return host t

/-- What offering a tree to a host comes to, and the trees that the host is given.  The names in the
tree are those of the interner `i`. -/
structure Attempts (host : Tree → Except ε γ) (t : Tree) (i : Interner)
    (result : Except (CompileError ε) γ) (given : List Tree) : Prop where
  /-- The tree goes without attached types first, and as it is only if the first was refused. -/
  given_eq : given = t.dropTypes :: if (host t.dropTypes).isOk then [] else [t]
  /-- The first tree that is accepted is what is compiled. -/
  accepted : result.toOption = given.findSome? fun u => (host u).toOption
  /-- It fails if both trees are refused, with the causes in the order of the attempts and the tree
  in writing. -/
  refused : ∀ e, result = .error e ↔
    host t.dropTypes = .error e.first ∧ host t = .error e.second ∧ e.text = t.print i
  /-- The text that goes with a failure is that of both trees that were refused. -/
  text : ∀ e, result = .error e → given = [t.dropTypes, t] ∧ ∀ u ∈ given, e.text = u.print i
  /-- In words, the text comes before the causes, and these in the order of the attempts. -/
  message : ∀ [ToString ε] e, result = .error e →
    e.message = "could not compile generated tree `" ++ t.print i ++ "`: " ++ toString e.first
      ++ "; retry keeping attached types: " ++ toString e.second
  /-- Whatever the names are, both trees are written alike. -/
  printed : ∀ names, t.dropTypes.print names = t.print names
  /-- Without attached types the two trees are the same. -/
  same_iff : t.dropTypes = t ↔ t.hasTypes = false

variable {host : Tree → Except ε γ} {t : Tree} {i : Interner}

theorem mapError_eq_error_iff {ε' : Type} {x : Except ε γ} {f : ε → ε'} {e' : ε'} :
    x.mapError f = .error e' ↔ ∃ e, x = .error e ∧ f e = e' := by
  cases x <;> simp [Except.mapError]

/-- A tree that is accepted without attached types is given to the host once. -/
theorem Attempts.of_first {c : γ} (h : host t.dropTypes = .ok c) :
    Attempts host t i (.ok c) [t.dropTypes] where
  given_eq := by simp [h, Except.isOk, Except.toBool]
  accepted := by simp [h, Except.toOption]
  refused := by simp [h]
  text _ he := by contradiction
  message _ he := by contradiction
  printed := t.print_dropTypes
  same_iff := t.dropTypes_eq_self_iff

/-- A tree that is refused without attached types is given to the host as it is, and whatever comes
of that is the result. -/
theorem Attempts.of_second {first : ε} (h : host t.dropTypes = .error first) :
    Attempts host t i
      ((host t).mapError fun second => { text := t.print i, first, second }) [t.dropTypes, t] where
  given_eq := by simp [h, Except.isOk, Except.toBool]
  accepted := by cases ht : host t <;> simp [h, ht, Except.toOption, Except.mapError]
  refused e := by
    rw [mapError_eq_error_iff]
    constructor
    · rintro ⟨second, ht, rfl⟩
      exact ⟨h, ht, rfl⟩
    · rintro ⟨hfirst, ht, htext⟩
      obtain rfl := Except.error.inj (h.symm.trans hfirst)
      exact ⟨e.second, ht, by rw [← htext]⟩
  text e he := by
    obtain ⟨second, -, rfl⟩ := mapError_eq_error_iff.mp he
    exact ⟨rfl, by simp [t.print_dropTypes]⟩
  message e he := by
    obtain ⟨second, -, rfl⟩ := mapError_eq_error_iff.mp he
    rfl
  printed := t.print_dropTypes
  same_iff := t.dropTypes_eq_self_iff

/-- **A host is called once or twice**, and what comes of it follows from its answers. -/
theorem attempts_compile (host : Tree → Except ε γ) (t : Tree) (i : Interner) (log : List Tree) :
    ∃ result given, (compile (noting host) t i).run log = (result, log ++ given) ∧
      Attempts host t i result given := by
  cases hfirst : host t.dropTypes with
  | ok c =>
    refine ⟨_, _, ?_, .of_first hfirst⟩
    simp only [compile, noting, hfirst, bind_assoc, pure_bind]
    rfl
  | error first =>
    refine ⟨_, _, ?_, .of_second hfirst⟩
    cases hsecond : host t <;>
      simp only [compile, noting, hfirst, hsecond, bind_assoc, pure_bind, StateT.run_bind,
        StateT.run_modify, List.append_assoc] <;>
      rfl

end

/-! ## 2. Reified values -/

namespace Session

variable {V ε γ : Type}

theorem run_compileReified {m : Type → Type} [Monad m] (s : Session) (lift : Lift V)
    (host : Tree → m (Except ε γ)) (r : Reified V) :
    (compileReified lift host r).run s =
      match (emitReified lift r).run s with
      | (.error e, s) => return (.error (.reify e), s)
      | (.ok tree, s) => do return ((← compile host tree s.interner).mapError .compile, s) := rfl

/-- **What compiling a reified value comes to.**  A value that cannot be flattened is refused for
that reason; the session stays as it is and the host is not called.  Any other value is emitted,
and the tree is offered to the host in at most two attempts; what is written of it is written with
the names that the session has then. -/
theorem compileReified_attempts (s : Session) (lift : Lift V) (host : Tree → Except ε γ)
    (r : Reified V) (log : List Tree) :
    match r.flatten lift with
    | .error e =>
      ((compileReified lift (noting host) r).run s).run log = ((.error (.reify e), s), log)
    | .ok flat =>
      ∃ t s' result given,
        (emitReified lift r).run s = (.ok t, s') ∧
        flat.emit.run s.interner = (t, s'.interner) ∧ s'.config = s.config ∧
        ((compileReified lift (noting host) r).run s).run log =
          ((result.mapError .compile, s'), log ++ given) ∧
        Attempts host t s'.interner result given := by
  cases hflat : r.flatten lift with
  | error e =>
    have hemitted : (emitReified lift r).run s = (.error e, s) := by
      simp only [emitReified, StateT.run, hflat]
    rw [run_compileReified, hemitted]
    rfl
  | ok flat =>
    obtain ⟨t, i, hemit⟩ : ∃ t i, flat.emit.run s.interner = (t, i) := ⟨_, _, rfl⟩
    have hemitted : (emitReified lift r).run s = (.ok t, { s with interner := i }) := by
      rw [StateT.run] at hemit
      simp only [emitReified, StateT.run, hflat, hemit]
    obtain ⟨result, given, hrun, hattempts⟩ := attempts_compile host t i log
    refine ⟨t, { s with interner := i }, result, given, hemitted, hemit, rfl, ?_, hattempts⟩
    rw [run_compileReified, hemitted]
    simp only [StateT.run_bind, hrun]
    rfl

end Session

end Enrich
