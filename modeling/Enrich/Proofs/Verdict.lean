import Enrich.Extension.Expansion
/-!
# What becomes of a member is decided before anything is done

`expand` looks at a member, reports, and generates code.  What it looks at is the member and the
place it stands in, never the names or the findings so far.  `judge` is that look on its own: its
answer is a `Verdict`, and `expand` is the verdict carried out (`expand_eq_carryOut`).

Everything the expander can do to a member is read off here, so later proofs do not open `expand`.

* `expand_eq_carryOut`: the expander carries out its verdict.
* `run_expand_of_keep`, `run_expand_of_drop`, `run_expand_of_extend`: what that does to the state.
* `faults_ne_nil_of_drop`: nothing is dropped without a fault.
* `judge_extend`: what is replaced has one extension annotation and nothing against it.
* `judge_eq_keep_nil_iff`: a look keeps a member in silence exactly when nothing is asked for.
* `Search.of_eraseIdx_of_found`: without that annotation no extension is asked for.
-/

namespace Enrich

/-! ## 1. The verdict -/

/-- What is to become of a member. -/
inductive Verdict where
  /-- It stays, with remarks on it. -/
  | keep (remarks : List Remark)
  /-- It goes, for these faults. -/
  | drop (faults : List Fault)
  /-- It is replaced by the code of the extension `e`; `spelling` is what is wrong with its
  annotation all the same. -/
  | extend (spelling : List Fault) (e : Extension) (target : Target)

/-- The verdict on a member with the one annotation `f`. -/
def judgeFound (v : Vocabulary) (scope : Scope) (d : MethodDef Tree Tree) (span : Span)
    (f : Found) : Verdict :=
  if scope = .enclosed ∧ f.kind = .staged then
    if f.isOld then .drop [.oldSpelling f.span (some d.name)]
    else .keep [.notExpanded d.name f.span]
  else
    let spelling := if f.isOld then [.oldSpelling f.span none] else []
    let e := Extension.ofFound f d span
    match e.payload.asTarget?, e.faults v with
    | .ok target, [] => .extend spelling e target
    | _, faults => .drop (spelling ++ faults)

/-- The verdict on a member. -/
def judge (v : Vocabulary) (scope : Scope) (t : Tree) : Verdict :=
  match t.shape with
  | .methodDef d =>
    match Search.of v.annotations d.mods.annotations with
    | .nothing => .keep []
    | .several spans => .drop [.several d.name t.span spans]
    | .malformed arity span => .drop [.malformed arity span]
    | .found f => judgeFound v scope d t.span f
  | _ => .keep []

/-- Does what a verdict says. -/
def Verdict.carryOut (v : Vocabulary) : Verdict → ExpandM Expansion
  | .keep remarks => fun s => (.kept, { s with findings := s.findings ++ remarks.map .remark })
  | .drop faults => fun s => (.dropped, { s with findings := s.findings ++ faults.map .fault })
  | .extend spelling e target => do
    ExpandM.reportFaults spelling
    return .replaced (← e.generate v target)

/-! ## 2. The expander carries out the verdict -/

namespace ExpandM

theorem reportFaults_append (fs gs : List Fault) :
    reportFaults (fs ++ gs) = reportFaults fs >>= fun _ => reportFaults gs := by
  funext s
  have h : s.findings ++ (fs ++ gs).map Finding.fault =
      (s.findings ++ fs.map .fault) ++ gs.map .fault := by
    rw [List.map_append, List.append_assoc]
  exact congrArg (fun found => ((), { s with findings := found })) h

@[simp] theorem reportFaults_nil : reportFaults [] = pure () := by
  funext s
  exact congrArg (fun found => ((), { s with findings := found })) (List.append_nil s.findings)

end ExpandM

/-- Nothing happens where there is nothing to remark on. -/
theorem Verdict.carryOut_keep_nil (v : Vocabulary) : (keep []).carryOut v = pure .kept := by
  funext s
  exact congrArg (fun found => (Expansion.kept, { s with findings := found }))
    (List.append_nil s.findings)

namespace Extension

theorem synthesize_of_ok {v : Vocabulary} {e : Extension} {target : Target}
    (ht : e.payload.asTarget? = .ok target) (hf : e.faults v = []) :
    e.synthesize v = some <$> e.generate v target := by
  simp only [synthesize, ht, hf]

theorem synthesize_of_bad {v : Vocabulary} {e : Extension}
    (h : ∀ target, e.payload.asTarget? = .ok target → e.faults v ≠ []) :
    e.synthesize v = ExpandM.reportFaults (e.faults v) >>= fun _ => pure none := by
  unfold synthesize
  split
  · rename_i target ht hf
    exact absurd hf (h target ht)
  · rfl

/-- An argument that is no type is a fault. -/
theorem faults_ne_nil_of_error {v : Vocabulary} {e : Extension} {bad : NotAType}
    (h : e.payload.asTarget? = .error bad) : e.faults v ≠ [] := by
  simp [faults, targetFaults, h]

end Extension

/-- What is left to do once the spelling is known to be `spelling`. -/
theorem synthesize_eq_carryOut (v : Vocabulary) (spelling : List Fault) (e : Extension) :
    (ExpandM.reportFaults spelling >>= fun _ => e.synthesize v >>= fun
        | some trees => pure (Expansion.replaced trees)
        | none => pure .dropped) =
      (match e.payload.asTarget?, e.faults v with
        | .ok target, [] => Verdict.extend spelling e target
        | _, faults => .drop (spelling ++ faults)).carryOut v := by
  split
  · rename_i target hok hnil
    simp only [e.synthesize_of_ok hok hnil, Verdict.carryOut, map_eq_pure_bind, bind_assoc,
      pure_bind]
  · rename_i hbad
    have hdrop : ∀ fs, (Verdict.drop fs).carryOut v =
        ExpandM.reportFaults fs >>= fun _ => pure .dropped := fun _ => rfl
    rw [hdrop, e.synthesize_of_bad hbad, ExpandM.reportFaults_append]
    simp only [bind_assoc, pure_bind]

/-- What `expand` does once it has found the one annotation of a method. -/
theorem expand_of_found {v : Vocabulary} {scope : Scope} {t : Tree} {d : MethodDef Tree Tree}
    {f : Found} (ht : t.shape = .methodDef d)
    (hf : Search.of v.annotations d.mods.annotations = .found f) :
    expand v scope t = (judgeFound v scope d t.span f).carryOut v := by
  simp only [expand, ht, hf, judgeFound]
  by_cases hs : scope = .enclosed ∧ f.kind = .staged
  · rw [if_pos hs, if_pos hs]
    split <;> rfl
  · rw [if_neg hs, if_neg hs]
    by_cases hold : f.isOld = true
    · rw [if_pos hold, if_pos hold]
      exact synthesize_eq_carryOut v _ _
    · rw [if_neg hold, if_neg hold]
      have h := synthesize_eq_carryOut v [] (.ofFound f d t.span)
      rw [ExpandM.reportFaults_nil, pure_bind] at h
      exact h

/-- **The expander carries out its verdict.** -/
theorem expand_eq_carryOut (v : Vocabulary) (scope : Scope) (t : Tree) :
    expand v scope t = (judge v scope t).carryOut v := by
  unfold judge
  split
  · rename_i d hd
    split
    · rename_i hs
      simp only [expand, hd, hs, Verdict.carryOut_keep_nil]
    · rename_i hs
      simp only [expand, hd, hs]
      rfl
    · rename_i hs
      simp only [expand, hd, hs]
      rfl
    · rename_i hs
      exact expand_of_found hd hs
  · rename_i hne
    unfold expand
    split
    · rename_i d hd
      exact absurd hd (hne d)
    · exact (Verdict.carryOut_keep_nil v).symm

/-! ## 3. What the verdicts do -/

section

variable {v : Vocabulary} {scope : Scope} {t : Tree}

theorem run_expand_of_keep {remarks : List Remark} (h : judge v scope t = .keep remarks)
    (s : ExpandState) :
    (expand v scope t).run s =
      (.kept, { s with findings := s.findings ++ remarks.map .remark }) := by
  rw [expand_eq_carryOut, h]
  rfl

theorem run_expand_of_drop {faults : List Fault} (h : judge v scope t = .drop faults)
    (s : ExpandState) :
    (expand v scope t).run s =
      (.dropped, { s with findings := s.findings ++ faults.map .fault }) := by
  rw [expand_eq_carryOut, h]
  rfl

theorem run_expand_of_extend {spelling : List Fault} {e : Extension} {target : Target}
    (h : judge v scope t = .extend spelling e target) (s : ExpandState) :
    (expand v scope t).run s =
      let code := (e.generate v target).run
        { s with findings := s.findings ++ spelling.map .fault }
      (.replaced code.1, code.2) := by
  rw [expand_eq_carryOut, h]
  rfl

/-- A member that is dropped in some state has the verdict that drops it in every state. -/
theorem judge_of_dropped {s : ExpandState} (h : ((expand v scope t).run s).1 = .dropped) :
    ∃ faults, judge v scope t = .drop faults := by
  cases hj : judge v scope t with
  | keep remarks => simp [run_expand_of_keep hj] at h
  | drop faults => exact ⟨faults, rfl⟩
  | extend spelling e target => simp [run_expand_of_extend hj] at h

end

/-! ## 4. What the verdicts stand on -/

section

variable {v : Vocabulary} {scope : Scope} {d : MethodDef Tree Tree} {span : Span} {f : Found}
  {faults spelling : List Fault} {remarks : List Remark} {e : Extension} {target : Target}

/-- A method with one extension annotation is kept, dropped or replaced: the three ways apart. -/
private theorem judgeFound_cases (v : Vocabulary) (scope : Scope) (d : MethodDef Tree Tree)
    (span : Span) (f : Found) :
    judgeFound v scope d span f = .keep [.notExpanded d.name f.span] ∨
      (∃ faults, faults ≠ [] ∧ judgeFound v scope d span f = .drop faults) ∨
      ∃ spelling target, judgeFound v scope d span f =
          .extend spelling (.ofFound f d span) target ∧
        f.payload.asTarget? = .ok target ∧ (Extension.ofFound f d span).faults v = [] := by
  unfold judgeFound
  split
  · split
    · exact .inr (.inl ⟨_, by simp, rfl⟩)
    · exact .inl rfl
  · right
    dsimp only
    split
    · rename_i target hok hnil
      exact .inr ⟨_, target, rfl, hok, hnil⟩
    · rename_i hbad
      refine .inl ⟨_, fun hnil => ?_, rfl⟩
      have hf := (List.append_eq_nil_iff.mp hnil).2
      cases ht : (Extension.ofFound f d span).payload.asTarget? with
      | ok target => exact hbad target ht hf
      | error bad => exact Extension.faults_ne_nil_of_error ht hf

/-- **The verdicts.**  A member is kept in silence if nothing asks for an extension; otherwise it is
a method that is kept with one remark, dropped with a fault, or replaced because nothing speaks
against it. -/
theorem judge_cases (v : Vocabulary) (scope : Scope) (t : Tree) :
    judge v scope t = .keep [] ∨
      (∃ name span, judge v scope t = .keep [.notExpanded name span]) ∨
      (∃ faults, faults ≠ [] ∧ judge v scope t = .drop faults) ∨
      ∃ d f spelling target, t.shape = .methodDef d ∧
        Search.of v.annotations d.mods.annotations = .found f ∧
        judge v scope t = .extend spelling (.ofFound f d t.span) target ∧
        f.payload.asTarget? = .ok target ∧ (Extension.ofFound f d t.span).faults v = [] := by
  unfold judge
  split
  · rename_i d hd
    split
    · exact .inl rfl
    · exact .inr (.inr (.inl ⟨_, by simp, rfl⟩))
    · exact .inr (.inr (.inl ⟨_, by simp, rfl⟩))
    · rename_i f hf
      rcases judgeFound_cases v scope d t.span f with h | ⟨fs, hne, h⟩ | ⟨sp, target, h, ht, hn⟩
      · exact .inr (.inl ⟨_, _, h⟩)
      · exact .inr (.inr (.inl ⟨fs, hne, h⟩))
      · exact .inr (.inr (.inr ⟨d, f, sp, target, hd, hf, h, ht, hn⟩))
  · exact .inl rfl

variable {t : Tree}

/-- **Nothing is dropped without a fault.** -/
theorem faults_ne_nil_of_drop (h : judge v scope t = .drop faults) : faults ≠ [] := by
  rcases judge_cases v scope t with h' | ⟨_, _, h'⟩ | ⟨fs, hne, h'⟩ | ⟨_, _, _, _, _, _, h', _⟩
  · simp [h'] at h
  · simp [h'] at h
  · rw [h', Verdict.drop.injEq] at h
    exact h ▸ hne
  · simp [h'] at h

/-- A member is kept with no other remark than that it was not expanded. -/
theorem remarks_of_keep (h : judge v scope t = .keep remarks) :
    ∀ r ∈ remarks, ∃ name span, r = .notExpanded name span := by
  rcases judge_cases v scope t with h' | ⟨n, sp, h'⟩ | ⟨_, _, h'⟩ | ⟨_, _, _, _, _, _, h', _⟩
  · rw [h', Verdict.keep.injEq] at h
    simp [← h]
  · rw [h', Verdict.keep.injEq] at h
    simp [← h]
  · simp [h'] at h
  · simp [h'] at h

/-- **What is replaced is a method with one extension annotation and nothing against it.** -/
theorem judge_extend (h : judge v scope t = .extend spelling e target) :
    ∃ d f, t.shape = .methodDef d ∧ Search.of v.annotations d.mods.annotations = .found f ∧
      e = .ofFound f d t.span ∧ e.payload.asTarget? = .ok target ∧ e.faults v = [] := by
  rcases judge_cases v scope t with h' | ⟨_, _, h'⟩ | ⟨_, _, h'⟩ | ⟨d, f, _, _, hd, hf, h', ht, hn⟩
  · simp [h'] at h
  · simp [h'] at h
  · simp [h'] at h
  · rw [h', Verdict.extend.injEq] at h
    obtain ⟨-, rfl, rfl⟩ := h
    exact ⟨d, f, hd, hf, rfl, ht, hn⟩

end

/-! ## 5. Members that ask for an extension -/

/-- Is the tree a method with an annotation that asks for an extension, well formed or not? -/
def Tree.IsRecognised (names : AnnotationNames) (t : Tree) : Prop :=
  ∃ d, t.shape = .methodDef d ∧ ∃ a ∈ d.mods.annotations, AnnotationMatch.of names a ≠ .unrelated

/-- A method with one extension annotation is never kept in silence. -/
private theorem judgeFound_ne_keep_nil (v : Vocabulary) (scope : Scope) (d : MethodDef Tree Tree)
    (span : Span) (f : Found) : judgeFound v scope d span f ≠ .keep [] := by
  unfold judgeFound
  split
  · split <;> simp
  · dsimp only
    split <;> simp

/-- **A look keeps a member in silence exactly when nothing is asked for.** -/
theorem judge_eq_keep_nil_iff {v : Vocabulary} {scope : Scope} {t : Tree} :
    judge v scope t = .keep [] ↔ ¬ t.IsRecognised v.annotations := by
  have hnothing : ∀ {d : MethodDef Tree Tree}, t.shape = .methodDef d →
      (Search.of v.annotations d.mods.annotations = .nothing ↔ ¬ t.IsRecognised v.annotations) := by
    intro d hd
    rw [Search.of_eq_nothing_iff]
    simp [Tree.IsRecognised, hd]
  unfold judge
  split
  · rename_i d hd
    rw [← hnothing hd]
    split
    · rename_i h
      simp [h]
    · rename_i h
      simp [h]
    · rename_i h
      simp [h]
    · rename_i f h
      simp [h, judgeFound_ne_keep_nil]
  · rename_i hne
    exact iff_of_true rfl fun ⟨d, hd, _⟩ => hne d hd

/-! ## 6. What a verdict looks at -/

/-- What stands in front of a method: its modifiers and its name. -/
def Shape.methodHead? {α β : Type} : Shape α β → Option (Modifiers α × Name)
  | .methodDef d => some (d.mods, d.name)
  | _ => none

theorem Shape.methodHead?_map {α β γ : Type} (g : β → γ) (s : Shape α β) :
    (s.map g).methodHead? = s.methodHead? := by
  cases s <;> simp [map, bimap, methodHead?, MethodDef.bimap, Modifiers.map]

def Tree.methodHead? (t : Tree) : Option (Modifiers Tree × Name) := t.shape.methodHead?

theorem Tree.methodHead?_eq_some_iff {t : Tree} {mods : Modifiers Tree} {name : Name} :
    t.methodHead? = some (mods, name) ↔
      ∃ d, t.shape = .methodDef d ∧ d.mods = mods ∧ d.name = name := by
  unfold methodHead?
  cases t.shape <;> simp [Shape.methodHead?]

theorem Tree.methodHead?_eq_none_iff {t : Tree} :
    t.methodHead? = none ↔ ∀ d, t.shape ≠ .methodDef d := by
  unfold methodHead?
  cases t.shape <;> simp [Shape.methodHead?]

theorem judge_of_not_method {v : Vocabulary} {scope : Scope} {t : Tree}
    (h : ∀ d, t.shape ≠ .methodDef d) : judge v scope t = .keep [] := by
  unfold judge
  split
  · rename_i d hd
    exact absurd hd (h d)
  · rfl

/-- Only the place and the annotation decide that a method with an annotation is kept. -/
private theorem judgeFound_keep_congr {v : Vocabulary} {scope : Scope} {d d' : MethodDef Tree Tree}
    {span span' : Span} {f : Found} {remarks : List Remark} (hname : d'.name = d.name)
    (h : judgeFound v scope d span f = .keep remarks) :
    judgeFound v scope d' span' f = .keep remarks := by
  unfold judgeFound at h ⊢
  split at h
  · rename_i hplace
    rw [if_pos hplace]
    split at h
    · contradiction
    · rename_i hold
      rw [if_neg hold, hname]
      exact h
  · dsimp only at h
    split at h <;> contradiction

/-- **What is kept is kept for what stands in front of it**, whatever is inside. -/
theorem judge_keep_of_head {v : Vocabulary} {scope : Scope} {t u : Tree} {remarks : List Remark}
    (h : judge v scope t = .keep remarks) (hu : u.methodHead? = t.methodHead?) :
    judge v scope u = .keep remarks := by
  cases ht : t.methodHead? with
  | none =>
    rw [judge_of_not_method (Tree.methodHead?_eq_none_iff.mp ht)] at h
    rw [judge_of_not_method (Tree.methodHead?_eq_none_iff.mp (hu.trans ht)), h]
  | some head =>
    obtain ⟨d, hd, hmods, hname⟩ := Tree.methodHead?_eq_some_iff.mp ht
    obtain ⟨d', hd', hmods', hname'⟩ := Tree.methodHead?_eq_some_iff.mp (hu.trans ht)
    simp only [judge, hd, hd', hmods, hmods'] at h ⊢
    split at h
    · exact h
    · contradiction
    · contradiction
    · exact judgeFound_keep_congr (hname'.trans hname.symm) h

/-! ## 7. The annotation that was found -/

namespace Search

variable {names : AnnotationNames} {anns : List Tree} {f : Found}

/-- What is found is the one candidate. -/
theorem candidates_of_found (h : Search.of names anns = .found f) :
    ∃ ann, candidates names anns = [(ann, f.index)] := by
  unfold Search.of at h
  split at h
  · contradiction
  · rename_i ann index hc
    split at h <;> try contradiction
    cases h
    exact ⟨ann, hc⟩
  · contradiction

/-- **Without the annotation that was found, no extension is asked for.** -/
theorem of_eraseIdx_of_found (h : Search.of names anns = .found f) :
    Search.of names (anns.eraseIdx f.index) = .nothing := by
  obtain ⟨ann, hc⟩ := candidates_of_found h
  rw [of_eq_nothing_iff]
  intro a ha
  obtain ⟨j, hj, hja⟩ := List.mem_eraseIdx_iff_getElem?.mp ha
  -- were `a` a candidate, it would be the one that was found, and that one is gone
  refine Decidable.byContradiction fun hu => ?_
  have hext : (AnnotationMatch.of names a).isExtension = true := by
    cases hm : AnnotationMatch.of names a <;> simp_all [AnnotationMatch.isExtension]
  have hmem : (a, j) ∈ candidates names anns :=
    List.mem_filter.mpr ⟨List.mem_zipIdx_iff_getElem?.mpr hja, hext⟩
  rw [hc, List.mem_singleton, Prod.mk.injEq] at hmem
  exact hj hmem.2

/-- The annotation that was found is in the list. -/
theorem index_lt_of_found (h : Search.of names anns = .found f) : f.index < anns.length := by
  obtain ⟨ann, hc⟩ := candidates_of_found h
  have hmem : (ann, f.index) ∈ candidates names anns := by rw [hc]; exact List.mem_singleton_self _
  have hget := List.mem_zipIdx_iff_getElem?.mp (List.mem_filter.mp hmem).1
  exact (List.getElem?_eq_some_iff.mp hget).1

end Search

/-! ## 8. A definition to try things on -/

/-- The vocabulary of a new session. -/
def Vocabulary.usual : Vocabulary := ((Vocabulary.intern {}).run .new).1

/-- The definition `@request(target) def name(): result = body`. -/
def Tree.extensionDef (request name : Name) (target : Tree) (result : Option Tree) (body : Tree)
    (span : Span) : Tree :=
  let call := Tree.apply (.ofShape (.new (.typeIdent request span)) span) [target] span
  .methodDef { mods := { annotations := [call] }
               name, tparams := [], groups := [[]], result, body } span

end Enrich
