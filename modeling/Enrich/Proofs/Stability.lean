import Enrich.Proofs.Histories
/-!
# A value is emitted alike all through a session

The names that captures are bound to are numbered, not generated: the interner is asked for
`capture$0`, `capture$1` and so on, whoever has had these strings interned before.  So a value that
is emitted again is emitted with the names that it had, whatever the session has done in between,
and there is nothing left to intern for it.

What carries this through a history is that no operation takes a string from the interner.

* `Session.extends_after`: a session forgets no name.
* `Session.emitReified_after_history`: what is emitted later is what was emitted first.
-/

namespace Enrich

/-! ## 1. A session forgets no name -/

/-- Emission does no more to an interner than interning. -/
theorem Flattened.interns_emit (f : Flattened) : Interns f.emit := by
  unfold emit
  split
  · exact .pure f.expr
  · exact .bind (.mapM (fun k => .intern (captureNameText k)) _) fun names =>
      .pure (f.emitWith names)

namespace Session

variable {V : Type} (lift : Lift V) (r : Reified V)

/-- What emitting a reified value does to a session: nothing if the value cannot be flattened. -/
theorem run_emitReified (s : Session) :
    (emitReified lift r).run s =
      match r.flatten lift with
      | .error e => (.error e, s)
      | .ok flat => (.ok (flat.emit.run s.interner).1,
          { s with interner := (flat.emit.run s.interner).2 }) := rfl

theorem extends_emitReified (s : Session) :
    ((emitReified lift r).run s).2.interner.Extends s.interner := by
  rw [run_emitReified]
  cases r.flatten lift with
  | error e => exact .refl _
  | ok flat => exact flat.interns_emit.grows s.interner

theorem extends_expand (s : Session) (unit : Tree) :
    ((expand unit).run s).2.interner.Extends s.interner := by
  obtain ⟨v, i, hv⟩ : ∃ v i, (Vocabulary.intern s.config.toOptions).run s.interner = (v, i) :=
    ⟨_, _, rfl⟩
  rw [(run_expand hv unit).1]
  exact (extends_expandUnit v unit _).trans (Vocabulary.extends_of_intern hv)

/-- No operation takes a string from the interner. -/
theorem extends_apply (s : Session) (op : Operation) :
    (op.apply s).interner.Extends s.interner := by
  cases op <;> simp only [Operation.apply]
  case expand unit => exact s.extends_expand unit
  case intern text => exact s.interner.extends_intern text
  case emit lift r => exact extends_emitReified lift r s
  case compile lift host r =>
    rw [run_compileReified_snd]
    exact extends_emitReified lift r s

/-- **A session forgets no name**, whatever it does. -/
theorem extends_after (s : Session) (history : List Operation) :
    (s.after history).interner.Extends s.interner := by
  induction history generalizing s with
  | nil => exact .refl _
  | cons op history ih => exact (ih (op.apply s)).trans (s.extends_apply op)

/-! ## 2. The same value again -/

/-- In a session that knows all that was known after the value was emitted, it is emitted as it was,
and nothing is interned. -/
theorem emitReified_again {s s' : Session}
    (h : s'.interner.Extends ((emitReified lift r).run s).2.interner) :
    (emitReified lift r).run s' = (((emitReified lift r).run s).1, s') := by
  rw [run_emitReified] at h
  rw [run_emitReified, run_emitReified]
  cases hflat : r.flatten lift with
  | error e => rfl
  | ok flat =>
    rw [hflat] at h
    have hagain := flat.interns_emit.again s.interner s'.interner h
    simp only [hagain]

/-- **What is emitted later is what was emitted first.**  Emit a reified value, let the session
expand units, intern strings, emit and compile other values in any order, and emit the value again.
The second result is the first one, be it a tree, with every name in it, or an error; and the second
emission finds all its names in the interner, so it leaves the session as it is. -/
theorem emitReified_after_history (s : Session) (history : List Operation) :
    let first := (emitReified lift r).run s
    let later := first.2.after history
    let second := (emitReified lift r).run later
    second.1 = first.1 ∧ second.2 = later := by
  intro first later second
  have hagain : second = (first.1, later) :=
    emitReified_again lift r (extends_after first.2 history)
  rw [hagain]
  exact ⟨rfl, rfl⟩

-- A binding name that the caller has interned before is not passed over.
example :
    let value : Reified Unit := .mk (.tag 0 .nowhere) [.leaf () (.typeIdent ⟨3⟩ .nowhere)]
    let lift : Lift Unit := fun _ _ => some (.ident ⟨1⟩ .nowhere)
    let s : Session := {}
    let s' := s.after [.intern "capture$0"]
    (s'.after [.emit lift value]).interner = s'.interner := by
  decide +kernel

end Session

end Enrich
