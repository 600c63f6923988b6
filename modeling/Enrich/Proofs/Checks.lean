import Enrich.Interner.Table
import Enrich.Proofs.Interning
import Enrich.Proofs.Verdict
import Enrich.Proofs.Wording
import Enrich.Session.Basic
/-!
# The run with all its checks

No step of the expander can fail, since each has an answer for everything: a name that is not known
has the empty text, where there is no annotation nothing is taken out, there is always one more
number for a name, and a report is a report.  A program has no such answers.  It finds strings and
annotations by their positions, its numbers have thirty-two bits, and it has a channel for errors
and one for warnings.  Where something is amiss it stops.

Here is the run of such a program.  It checks whatever it looks up, takes out or counts, at the time
it does so, and puts a report into words as soon as there is something to report.

What it does with a member is a verdict carried out, as without the checks.  So it is known from
here on that it never stops over the position of an annotation.

* `Queue.error_eq`, `Queue.warning_eq`: the channels of a queue.
* `Search.ofChecked_eq`: the annotations are where they are looked for.
* `expandChecked_eq_carryOut`: the checked step carries out the verdict.
-/

namespace Enrich

/-! ## 1. Where a run can stop -/

/-- What makes a run stop. -/
inductive Stop where
  /-- A name was looked up that the interner does not know. -/
  | unknownName (n : Name)
  /-- An annotation was looked for at a position that the list does not have. -/
  | outOfRange (index : Nat)
  /-- A report was made on the wrong channel. -/
  | misreport (m : Misreport)
  /-- There is no name left for one more string. -/
  | internerFull (e : InternOverflow)
  /-- There is no number left for a generated name. -/
  | counterFull
deriving DecidableEq, Repr

/-- Where reports are made. -/
inductive Channel where
  | errors
  | warnings
deriving DecidableEq, Repr

/-- A channel lets a diagnostic of its own severity pass. -/
def Channel.accept (c : Channel) (d : Diagnostic) : Except Misreport Diagnostic :=
  match c with
  | .errors => if d.isError then .ok d else .error (.errorExpected d.severity)
  | .warnings => if d.isError then .error .warningExpected else .ok d

/-- A queue takes in as an error what the channel of errors lets pass. -/
theorem Queue.error_eq (q : Queue) (d : Diagnostic) :
    q.error d = (Channel.errors.accept d).map fun d => ({}, (q.add d).2) := by
  unfold error Channel.accept
  split <;> rfl

/-- A queue takes in as a warning what the channel of warnings lets pass. -/
theorem Queue.warning_eq (q : Queue) (d : Diagnostic) :
    q.warning d = (Channel.warnings.accept d).map fun d => (q.add d).2 := by
  unfold warning Channel.accept
  split <;> rfl

namespace Finding

/-- Faults are reported as errors and remarks as warnings. -/
def channel : Finding → Channel
  | .fault _ => .errors
  | .remark _ => .warnings

/-- **Every finding is on the right channel.** -/
theorem accept_diagnostic (x : Finding) (names : AnnotationNames) (i : Interner) :
    x.channel.accept (x.diagnostic names i) = .ok (x.diagnostic names i) := by
  cases x with
  | fault f => exact if_pos (f.diagnostic_isError names i)
  | remark r => exact if_neg (by simp [diagnostic])

/-- The names that are looked up to put a finding into words. -/
def spoken (names : AnnotationNames) : Finding → List Name
  | .fault (.oldSpelling _ removed) => names.deprecated :: names.staged :: removed.toList
  | .fault (.targetNotHandled payload _) => payload.pieces.flatMap Piece.names
  | x => x.names

/-- They are names in the finding, or how annotations are spelled. -/
theorem mem_spoken {names : AnnotationNames} {x : Finding} {n : Name} (h : n ∈ x.spoken names) :
    n ∈ x.names ∨ n = names.staged ∨ n = names.deprecated := by
  cases x with
  | fault f =>
    cases f with
    | oldSpelling span removed =>
      simp only [spoken, List.mem_cons] at h
      rcases h with rfl | rfl | h
      · exact .inr (.inr rfl)
      · exact .inr (.inl rfl)
      · exact .inl h
    | targetNotHandled payload span =>
      obtain ⟨p, hp, hn⟩ := List.mem_flatMap.mp h
      exact .inl (Tree.mem_names_of_mem_pieces hp hn)
    | malformed | several | missingResult | redeclared => exact .inl h
  | remark r => exact .inl h

/-- What holds of the names in a finding and of the words of the expander holds of all that is looked
up for it. -/
theorem forall_mem_spoken {v : Vocabulary} {x : Finding} {P : Name → Prop}
    (hv : ∀ n ∈ v.names, P n) (hx : ∀ n ∈ x.names, P n) : ∀ n ∈ x.spoken v.annotations, P n := by
  intro n hn
  rcases mem_spoken hn with hn | rfl | rfl
  · exact hx n hn
  · exact hv _ (by simp [Vocabulary.names])
  · exact hv _ (by simp [Vocabulary.names])

/-- **The words of a finding are those of the names that are looked up.** -/
theorem diagnostic_congr {names : AnnotationNames} {x : Finding} {i j : Interner}
    (h : ∀ n ∈ x.spoken names, j.text n = i.text n) :
    x.diagnostic names j = x.diagnostic names i := by
  cases x with
  | fault f =>
    cases f with
    | malformed => rfl
    | oldSpelling span removed =>
      have hdeprecated := h names.deprecated List.mem_cons_self
      have hstaged := h names.staged (List.mem_cons_of_mem _ List.mem_cons_self)
      cases removed with
      | none => simp [diagnostic, Fault.diagnostic, hdeprecated, hstaged]
      | some n =>
        have hn := h n (by simp [spoken])
        simp [diagnostic, Fault.diagnostic, hdeprecated, hstaged, hn]
    | targetNotHandled payload span =>
      have hprint : payload.print j = payload.print i := by
        refine congrArg String.join (List.map_congr_left fun p hp => ?_)
        have hp' : ∀ n ∈ p.names, j.text n = i.text n := fun n hn =>
          h n (List.mem_flatMap.mpr ⟨p, hp, hn⟩)
        cases p with
        | text s => rfl
        | name n => exact hp' n (List.mem_singleton_self n)
        | quoted n => exact congrArg Text.quote (hp' n (List.mem_singleton_self n))
      simp [diagnostic, Fault.diagnostic, hprint]
    | several n | missingResult n =>
      have hn := h n (List.mem_singleton_self n)
      simp [diagnostic, Fault.diagnostic, hn]
    | redeclared b =>
      have hn := h b.name (List.mem_singleton_self _)
      simp [diagnostic, Fault.diagnostic, hn]
  | remark r =>
    cases r with
    | runtimeWrapper n | notExpanded n =>
      have hn := h n (List.mem_singleton_self n)
      simp [diagnostic, Remark.diagnostic, hn]

end Finding

/-! ## 2. Checked steps -/

/-- What a checked run changes: the names in use, and the reports so far. -/
structure CheckedState where
  supply : NameSupply
  reports : List Diagnostic := []

/-- A step of a run that may stop. -/
abbrev CheckedM := StateT CheckedState (Except Stop)

namespace CheckedM

/-- The text of a name that must be known. -/
def text (n : Name) : CheckedM String := fun s =>
  match s.supply.interner.lookup? n with
  | some text => .ok (text, s)
  | none => .error (.unknownName n)

/-- Looks names up, from first to last. -/
def spell (ns : List Name) : CheckedM Unit := ns.forM fun n => (fun _ => ()) <$> text n

/-- Generates a name from a hint, if there is a number left for it and room in the interner. -/
def fresh (hint : String) : CheckedM Name := fun s =>
  let k := s.supply.next hint
  if UInt32.size ≤ k then .error .counterFull
  else
    match s.supply.interner.tryIntern (NameSupply.candidate hint k) with
    | .ok (n, interner) => .ok (n, { s with supply := { interner, counter := k } })
    | .error e => .error (.internerFull e)

/-- Generates a name whose hint is the text of another name. -/
def freshFrom (base : Name) : CheckedM Name := do fresh (← text base)

/-- The annotation at a position. -/
def annotationAt (annotations : List Tree) (index : Nat) : CheckedM Tree :=
  match annotations[index]? with
  | some a => pure a
  | none => throw (.outOfRange index)

/-- The annotations without the one at a position. -/
def removeAt (annotations : List Tree) (index : Nat) : CheckedM (List Tree) :=
  if index < annotations.length then pure (annotations.eraseIdx index)
  else throw (.outOfRange index)

/-- Puts a finding into words and reports it on its channel. -/
def say (names : AnnotationNames) (x : Finding) : CheckedM Unit := do
  spell (x.spoken names)
  let s ← get
  match x.channel.accept (x.diagnostic names s.supply.interner) with
  | .ok d => set { s with reports := s.reports ++ [d] }
  | .error m => throw (.misreport m)

/-- Reports findings from first to last. -/
def sayAll (names : AnnotationNames) (xs : List Finding) : CheckedM Unit := xs.forM (say names)

theorem sayAll_append (names : AnnotationNames) (xs ys : List Finding) :
    sayAll names (xs ++ ys) = sayAll names xs >>= fun _ => sayAll names ys := List.forM_append

section

variable {c : CheckedState}

theorem run_text {n : Name} (h : c.supply.interner.Knows n) :
    (text n).run c = .ok (c.supply.interner.text n, c) := by
  simp only [text, StateT.run, Interner.lookup?_of_knows h]

section

variable {hint : String} (hnext : ¬ UInt32.size ≤ c.supply.next hint)
include hnext

theorem run_fresh_of_ok {n : Name} {interner : Interner}
    (h : c.supply.interner.tryIntern (NameSupply.candidate hint (c.supply.next hint)) =
      .ok (n, interner)) :
    (fresh hint).run c =
      .ok (n, { c with supply := { interner, counter := c.supply.next hint } }) :=
  (if_neg hnext).trans (by rw [h])

theorem run_fresh_of_error {e : InternOverflow}
    (h : c.supply.interner.tryIntern (NameSupply.candidate hint (c.supply.next hint)) =
      .error e) : (fresh hint).run c = .error (.internerFull e) :=
  (if_neg hnext).trans (by rw [h])

end

/-- Names that are known can be looked up, and that changes nothing. -/
theorem run_spell {ns : List Name} (h : ∀ n ∈ ns, c.supply.interner.Knows n) :
    (spell ns).run c = .ok ((), c) := by
  induction ns with
  | nil => rfl
  | cons n ns ih =>
    obtain ⟨hn, hns⟩ := List.forall_mem_cons.mp h
    have hrest : (spell (n :: ns)).run c = (spell ns).run c := by
      change (((fun _ => ()) <$> text n) >>= fun _ => spell ns).run c = _
      rw [StateT.run_bind, StateT.run_map, run_text hn]
      rfl
    rw [hrest, ih hns]

/-- **A finding is reported if the names can be looked up.** -/
theorem run_say {names : AnnotationNames} {x : Finding}
    (h : ∀ n ∈ x.spoken names, c.supply.interner.Knows n) :
    (say names x).run c =
      .ok ((), { c with reports := c.reports ++ [x.diagnostic names c.supply.interner] }) := by
  rw [say, StateT.run_bind, run_spell h]
  change (match x.channel.accept (x.diagnostic names c.supply.interner) with
    | .ok d => set { c with reports := c.reports ++ [d] }
    | .error m => throw (Stop.misreport m) : CheckedM Unit).run c = _
  rw [x.accept_diagnostic names c.supply.interner]
  rfl

theorem run_sayAll {names : AnnotationNames} {xs : List Finding}
    (h : ∀ x ∈ xs, ∀ n ∈ x.spoken names, c.supply.interner.Knows n) :
    (sayAll names xs).run c = .ok ((), { c with
      reports := c.reports ++ xs.map (·.diagnostic names c.supply.interner) }) := by
  induction xs generalizing c with
  | nil =>
    rw [List.map_nil, List.append_nil]
    rfl
  | cons x xs ih =>
    obtain ⟨hx, hxs⟩ := List.forall_mem_cons.mp h
    change (say names x >>= fun _ => sayAll names xs).run c = _
    rw [StateT.run_bind, run_say hx]
    let said := x.diagnostic names c.supply.interner
    refine (ih (c := { c with reports := c.reports ++ [said] }) hxs).trans ?_
    simp only [said, List.map_cons, List.append_assoc, List.singleton_append]

end

theorem annotationAt_of_getElem? {annotations : List Tree} {index : Nat} {a : Tree}
    (h : annotations[index]? = some a) : annotationAt annotations index = pure a := by
  rw [annotationAt, h]

theorem removeAt_of_lt {annotations : List Tree} {index : Nat} (h : index < annotations.length) :
    removeAt annotations index = pure (annotations.eraseIdx index) := if_pos h

end CheckedM

open CheckedM

/-! ## 3. One member -/

/-- Looks through the annotations of a definition; what is found is then looked up by its
position. -/
def Search.ofChecked (names : AnnotationNames) (anns : List Tree) : CheckedM Search :=
  match (candidates names anns).map fun (ann, index) => (AnnotationMatch.of names ann, index) with
  | [] => return .nothing
  | [(one, index)] => do
    let ann ← annotationAt anns index
    match one with
    | .extension kind isOld payload =>
      return .found { kind, isOld, payload, index, span := ann.span }
    | .malformed arity => return .malformed arity ann.span
    | .unrelated => return .nothing
  | all => return .several (← all.mapM fun (_, index) => return (← annotationAt anns index).span)

/-- **The annotations are where they are looked for.** -/
theorem Search.ofChecked_eq (names : AnnotationNames) (anns : List Tree) :
    ofChecked names anns = pure (of names anns) := by
  have hat : ∀ c ∈ candidates names anns, annotationAt anns c.2 = pure c.1 := fun c hc =>
    annotationAt_of_getElem? (List.mem_zipIdx_iff_getElem?.mp (List.mem_filter.mp hc).1)
  unfold ofChecked of
  cases hcandidates : candidates names anns with
  | nil => rfl
  | cons c rest =>
    rw [hcandidates] at hat
    cases rest with
    | nil =>
      simp only [List.map_cons, List.map_nil, hat c List.mem_cons_self, pure_bind]
      cases AnnotationMatch.of names c.1 <;> rfl
    | cons c' rest =>
      have hspans : ((c :: c' :: rest).map fun (ann, index) =>
            (AnnotationMatch.of names ann, index)).mapM (fun (_, index) => do
              return (← annotationAt anns index).span : _ → CheckedM Span) =
          pure ((c :: c' :: rest).map (·.1.span)) := by
        have hspan : ∀ c ∈ candidates names anns,
            (do return (← annotationAt anns c.2).span : CheckedM Span) = pure c.1.span := by
          intro c hc
          rw [hat c (hcandidates ▸ hc), pure_bind]
        rw [List.mapM_map, ← hcandidates]
        exact (mapM_congr hspan).trans List.mapM_pure
      simp only [List.map_cons] at hspans ⊢
      rw [hspans, pure_bind]

/-- Generates what replaces an extension that nothing speaks against.  The names of the method and of
the wrapper class are looked up once more, for the trace of the run. -/
def Extension.generateChecked (v : Vocabulary) (e : Extension) (target : Target) :
    CheckedM (List Tree) := do
  let group ← freshFrom e.method.name
  match e.kind with
  | .staged =>
    let context ← fresh "c"
    let selfTree ← fresh "selfTree"
    spell [e.method.name, group]
    let evidence ← (splitTypeParams e.method.tparams target).2.mapM fun _ => fresh "evidence"
    return e.stagedTrees v target { group, context, selfTree, evidence }
  | .runtime =>
    spell [e.method.name, group]
    sayAll v.annotations [.remark (.runtimeWrapper e.method.name e.span)]
    return [e.runtimeTree v target group]

/-- What replaces an extension; nothing if something speaks against it. -/
def Extension.synthesizeChecked (v : Vocabulary) (e : Extension) :
    CheckedM (Option (List Tree)) := do
  sayAll v.annotations ((e.faults v).map .fault)
  match e.payload.asTarget?, e.faults v with
  | .ok target, [] => some <$> e.generateChecked v target
  | _, _ => return none

/-- Decides what becomes of a member, and generates what replaces it. -/
def expandChecked (v : Vocabulary) (scope : Scope) (t : Tree) : CheckedM Expansion := do
  let .methodDef d := t.shape | return .kept
  match ← Search.ofChecked v.annotations d.mods.annotations with
  | .nothing => return .kept
  | .several spans =>
    sayAll v.annotations [.fault (.several d.name t.span spans)]
    return .dropped
  | .malformed arity span =>
    sayAll v.annotations [.fault (.malformed arity span)]
    return .dropped
  | .found f =>
    if scope = .enclosed ∧ f.kind = .staged then
      if f.isOld then
        sayAll v.annotations [.fault (.oldSpelling f.span (some d.name))]
        return .dropped
      else
        sayAll v.annotations [.remark (.notExpanded d.name f.span)]
        return .kept
    else
      if f.isOld then
        sayAll v.annotations [.fault (.oldSpelling f.span none)]
      let annotations ← removeAt d.mods.annotations f.index
      let e : Extension :=
        { kind := f.kind, payload := f.payload, method := { d with mods.annotations := annotations },
          span := t.span }
      match ← e.synthesizeChecked v with
      | some trees => return .replaced trees
      | none => return .dropped

/-- Does what a verdict says. -/
def Verdict.carryOutChecked (v : Vocabulary) : Verdict → CheckedM Expansion
  | .keep remarks => do
    sayAll v.annotations (remarks.map .remark)
    return .kept
  | .drop faults => do
    sayAll v.annotations (faults.map .fault)
    return .dropped
  | .extend spelling e target => do
    sayAll v.annotations (spelling.map .fault)
    return .replaced (← e.generateChecked v target)

/-- What is left to do once the spelling is known to be `spelling`. -/
theorem synthesizeChecked_eq_carryOut (v : Vocabulary) (spelling : List Fault) (e : Extension) :
    (sayAll v.annotations (spelling.map .fault) >>= fun _ => e.synthesizeChecked v >>= fun
        | some trees => pure (Expansion.replaced trees)
        | none => pure .dropped) =
      (match e.payload.asTarget?, e.faults v with
        | .ok target, [] => Verdict.extend spelling e target
        | _, faults => .drop (spelling ++ faults)).carryOutChecked v := by
  unfold Extension.synthesizeChecked
  split
  · rename_i target hok hnil
    rw [hnil]
    simp only [Verdict.carryOutChecked, map_eq_pure_bind, bind_assoc, pure_bind]
    rfl
  · simp only [Verdict.carryOutChecked, List.map_append, sayAll_append, bind_assoc, pure_bind]

/-- What a checked step does once it has found the one annotation of a method. -/
theorem expandChecked_of_found {v : Vocabulary} {scope : Scope} {t : Tree}
    {d : MethodDef Tree Tree} {f : Found} (ht : t.shape = .methodDef d)
    (hf : Search.of v.annotations d.mods.annotations = .found f) :
    expandChecked v scope t = (judgeFound v scope d t.span f).carryOutChecked v := by
  simp only [expandChecked, ht, Search.ofChecked_eq, pure_bind, hf, judgeFound]
  by_cases hs : scope = .enclosed ∧ f.kind = .staged
  · rw [if_pos hs, if_pos hs]
    split <;> rfl
  · rw [if_neg hs, if_neg hs, removeAt_of_lt (Search.index_lt_of_found hf)]
    by_cases hold : f.isOld = true
    · rw [if_pos hold, if_pos hold]
      simp only [pure_bind]
      exact synthesizeChecked_eq_carryOut v [.oldSpelling f.span none] (.ofFound f d t.span)
    · rw [if_neg hold, if_neg hold]
      simp only [pure_bind]
      exact synthesizeChecked_eq_carryOut v [] (.ofFound f d t.span)

/-- **The checked step carries out the verdict.** -/
theorem expandChecked_eq_carryOut (v : Vocabulary) (scope : Scope) (t : Tree) :
    expandChecked v scope t = (judge v scope t).carryOutChecked v := by
  unfold judge
  split
  · rename_i d hd
    split <;> rename_i hs
    · simp only [expandChecked, hd, Search.ofChecked_eq, pure_bind, hs]
      rfl
    · simp only [expandChecked, hd, Search.ofChecked_eq, pure_bind, hs]
      rfl
    · simp only [expandChecked, hd, Search.ofChecked_eq, pure_bind, hs]
      rfl
    · exact expandChecked_of_found hd hs
  · rename_i hne
    unfold expandChecked
    split
    · rename_i d hd
      exact absurd hd (hne d)
    · rfl

/-! ## 4. A unit in a session -/

/-- Expands every extension of a unit. -/
def expandUnitChecked (v : Vocabulary) (t : Tree) : CheckedM Tree :=
  expandRounds (expandChecked v) t.expansionDepth t

/-- The name of a string, if there is room for it. -/
def Interner.internChecked (text : String) : StateT Interner (Except Stop) Name :=
  fun i => (i.tryIntern text).mapError .internerFull

/-- The names of all the words.  The words are taken in first, one after the other; then their names
can be read off. -/
def Vocabulary.internChecked (o : Options) : StateT Interner (Except Stop) Vocabulary := do
  let _ ← o.words.mapM Interner.internChecked
  modifyGet (Vocabulary.intern o).run

/-- Expands a unit on its own, and reports what is found as it is found. -/
def Session.expandReportsChecked (s : Session) (t : Tree) :
    Except Stop (Tree × List Diagnostic × Interner) := do
  let (v, interner) ← (Vocabulary.internChecked s.config.toOptions).run s.interner
  let (tree, state) ← (expandUnitChecked v t).run { supply := { interner } }
  return (tree, state.reports, state.supply.interner)

end Enrich
