import Enrich.Proofs.Checks
import Enrich.Proofs.Emission
import Enrich.Proofs.Mirror
import Enrich.Proofs.Stability
import Enrich.Proofs.Unwritten
/-!
# No check ever fails

The run with all its checks (`expandUnitChecked`) stops where a name is not known, where there is no
annotation, where a report is on the wrong channel, and where the interner is full or the counter of
generated names used up.  On a unit whose names are known it can stop for the last two reasons only,
and if it does not stop it does what the run without checks does.

The two runs are followed step by step (`FollowsAt`), from the interner `i` that the run starts with.
All that is looked up is known in `i`: what asks for an extension comes from the unit, in generated
code too (`Tree.AsksOnly`), and reports speak of names in it or of words of the expander.  So the
texts that are looked up never change, and it makes no difference that one run puts its reports into
words at once and the other at the end.

* `FollowsAt.bind`: steps one after the other.
* `follows_expandUnit`: the checked run of a unit.
* `Session.expandReports_checked`: the main statement.
-/

namespace Enrich

/-! ## 1. Room for names -/

/-- There is room for the strings, and a number for every name that was generated. -/
structure NameSupply.Fits (s : NameSupply) : Prop where
  interner : s.interner.size ≤ UInt32.size
  counter : s.counter < UInt32.size

instance (s : NameSupply) : Decidable s.Fits :=
  decidable_of_iff (s.interner.size ≤ UInt32.size ∧ s.counter < UInt32.size)
    ⟨fun h => ⟨h.1, h.2⟩, fun h => ⟨h.interner, h.counter⟩⟩

/-- `s'` is what has become of the supply `s`. -/
structure NameSupply.Grows (s' s : NameSupply) : Prop where
  interner : s'.interner.Extends s.interner
  counter : s.counter ≤ s'.counter

namespace NameSupply

variable {s s' s'' : NameSupply}

theorem Grows.refl (s : NameSupply) : s.Grows s := ⟨.refl _, Nat.le_refl _⟩

theorem Grows.trans (h : s''.Grows s') (h' : s'.Grows s) : s''.Grows s :=
  ⟨h.interner.trans h'.interner, Nat.le_trans h'.counter h.counter⟩

/-- If there is room in the end there was room before. -/
theorem Fits.of_grows (hfits : s'.Fits) (h : s'.Grows s) : s.Fits :=
  ⟨Nat.le_trans h.interner.size_le hfits.interner, Nat.lt_of_le_of_lt h.counter hfits.counter⟩

theorem grows_fresh (s : NameSupply) (hint : String) : (s.fresh hint).2.Grows s :=
  ⟨s.extends_fresh hint, Nat.le_of_lt (s.counter_lt_next hint)⟩

end NameSupply

/-- A string is given a name as long as there is one. -/
theorem Interner.tryIntern_of_fits {i : Interner} {text : String}
    (h : (i.intern text).2.size ≤ UInt32.size) : i.tryIntern text = .ok (i.intern text) := by
  refine if_neg fun ⟨hnone, hfull⟩ => ?_
  have hstrings := (strings_intern_of_get?_eq_none (Option.isNone_iff_eq_none.mp hnone)).2
  rw [size, hstrings, List.length_append] at h
  exact absurd h (Nat.not_le_of_lt (Nat.lt_succ_of_le hfull))

/-- It is refused one only if it is one too many. -/
theorem Interner.tryIntern_cases (i : Interner) (text : String) :
    i.tryIntern text = .ok (i.intern text) ∨
      ¬ (i.intern text).2.size ≤ UInt32.size ∧ ∃ e, i.tryIntern text = .error e := by
  by_cases h : (i.intern text).2.size ≤ UInt32.size
  · exact .inl (tryIntern_of_fits h)
  · unfold tryIntern
    split
    · exact .inr ⟨h, _, rfl⟩
    · exact .inl rfl

/-- The run has stopped because something was used up. -/
def Stop.IsForRoom : Stop → Prop
  | .internerFull _ | .counterFull => True
  | .unknownName _ | .outOfRange _ | .misreport _ => False

/-- The checked computation `x` comes to `a`, or stops because there is no `room`. -/
def Completes {γ : Type} (x : Except Stop γ) (a : γ) (room : Prop) : Prop :=
  x = .ok a ∨ ¬ room ∧ ∃ e, x = .error e ∧ e.IsForRoom

namespace Completes

variable {γ δ : Type} {x : Except Stop γ} {a : γ} {room room' : Prop}

/-- One computation after another. -/
theorem bind {f : γ → Except Stop δ} {b : δ} (hx : Completes x a room) (hroom : room' → room)
    (hf : Completes (f a) b room') : Completes (x >>= f) b room' := by
  rcases hx with rfl | ⟨hfull, e, rfl, he⟩
  · exact hf
  · exact .inr ⟨mt hroom hfull, e, rfl, he⟩

theorem eq_ok (h : Completes x a room) (hroom : room) : x = .ok a :=
  h.resolve_right fun ⟨hfull, _⟩ => hfull hroom

theorem isForRoom (h : Completes x a room) {e : Stop} (he : x = .error e) : e.IsForRoom := by
  rcases h with hok | ⟨-, e', he', hroom⟩
  · rw [hok] at he
    contradiction
  · rw [he', Except.error.injEq] at he
    exact he ▸ hroom

end Completes

/-! ## 2. One run after the other -/

/-- The state of the checked run, when the other is in state `s`.  What is found is put into words
with the texts of the interner `i`. -/
def ExpandState.worded (names : AnnotationNames) (i : Interner) (s : ExpandState) :
    CheckedState where
  supply := s.supply
  reports := s.findings.map (·.diagnostic names i)

/-- From the state `s` on, the checked step `x` does what `y` does, or there is no room for it. -/
structure FollowsAt {α : Type} (names : AnnotationNames) (i : Interner) (x : CheckedM α)
    (y : ExpandM α) (s : ExpandState) : Prop where
  grows : (y.run s).2.supply.Grows s.supply
  run : Completes (x.run (s.worded names i)) ((y.run s).1, (y.run s).2.worded names i)
    (y.run s).2.supply.Fits

/-- The checked step `x` does what `y` does, wherever all is known that is known in `i`. -/
def Follows {α : Type} (names : AnnotationNames) (i : Interner) (x : CheckedM α)
    (y : ExpandM α) : Prop :=
  ∀ s, s.supply.interner.Extends i → FollowsAt names i x y s

section

variable {α β : Type} {names : AnnotationNames} {i : Interner} {s : ExpandState}

namespace FollowsAt

theorem pure (a : α) : FollowsAt names i (pure a) (pure a) s := ⟨.refl _, .inl rfl⟩

/-- **One step after another.** -/
theorem bind {x : CheckedM α} {y : ExpandM α} {f : α → CheckedM β} {g : α → ExpandM β}
    (hx : FollowsAt names i x y s)
    (hf : FollowsAt names i (f (y.run s).1) (g (y.run s).1) (y.run s).2) :
    FollowsAt names i (x >>= f) (y >>= g) s := by
  refine ⟨hf.grows.trans hx.grows, ?_⟩
  rw [StateT.run_bind, run_bind_fst]
  exact hx.run.bind (·.of_grows hf.grows) hf.run

/-- Names that are known can be looked up along the way. -/
theorem spell {ns : List Name} {f : Unit → CheckedM β} {y : ExpandM β}
    (hns : ∀ n ∈ ns, s.supply.interner.Knows n) (hf : FollowsAt names i (f ()) y s) :
    FollowsAt names i (CheckedM.spell ns >>= f) y s := by
  have hrun : (CheckedM.spell ns >>= f).run (s.worded names i) =
      (f ()).run (s.worded names i) := by
    rw [StateT.run_bind, CheckedM.run_spell (c := s.worded names i) hns]
    rfl
  exact ⟨hf.grows, hrun ▸ hf.run⟩

theorem fresh (hint : String) :
    FollowsAt names i (CheckedM.fresh hint) (ExpandM.fresh hint) s := by
  refine ⟨s.supply.grows_fresh hint, ?_⟩
  let candidate := NameSupply.candidate hint (s.supply.next hint)
  by_cases hnext : UInt32.size ≤ s.supply.next hint
  · have hfull : ¬ (s.supply.fresh hint).2.Fits := fun hfits =>
      absurd hfits.counter (Nat.not_lt_of_le hnext)
    exact .inr ⟨hfull, .counterFull, if_pos hnext, trivial⟩
  · rcases s.supply.interner.tryIntern_cases candidate with hok | ⟨hfull, e, he⟩
    · exact .inl (CheckedM.run_fresh_of_ok (c := s.worded names i) hnext hok)
    · have hstop := CheckedM.run_fresh_of_error (c := s.worded names i) hnext he
      exact .inr ⟨fun hfits => hfull hfits.interner, _, hstop, trivial⟩

theorem freshFrom {base : Name} (hs : s.supply.interner.Knows base) :
    FollowsAt names i (CheckedM.freshFrom base) (ExpandM.freshFrom base) s := by
  have hrun : (CheckedM.freshFrom base).run (s.worded names i) =
      (CheckedM.fresh (s.supply.interner.text base)).run (s.worded names i) := by
    rw [CheckedM.freshFrom, StateT.run_bind, CheckedM.run_text (c := s.worded names i) hs]
    rfl
  have hfresh : FollowsAt names i _ _ s := fresh (s.supply.interner.text base)
  constructor
  · rw [run_freshFrom]
    exact hfresh.grows
  · rw [hrun, run_freshFrom]
    exact hfresh.run

/-- **Findings are put into words as they will be in the end**, if their names are known. -/
theorem sayAll {xs : List Finding} (hs : s.supply.interner.Extends i)
    (hxs : ∀ x ∈ xs, ∀ n ∈ x.spoken names, i.Knows n) :
    FollowsAt names i (CheckedM.sayAll names xs)
      (fun s => ((), { s with findings := s.findings ++ xs })) s := by
  have hknown : ∀ x ∈ xs, ∀ n ∈ x.spoken names, (s.worded names i).supply.interner.Knows n :=
    fun x hx n hn => hs.knows (hxs x hx n hn)
  have hwords : xs.map (·.diagnostic names s.supply.interner) = xs.map (·.diagnostic names i) :=
    List.map_congr_left fun x hx => x.diagnostic_congr fun n hn => hs.text_eq (hxs x hx n hn)
  refine ⟨.refl _, .inl ?_⟩
  rw [CheckedM.run_sayAll hknown]
  simp only [ExpandState.worded, hwords, StateT.run, List.map_append]

theorem sayAll_then (a : α) {xs : List Finding} (hs : s.supply.interner.Extends i)
    (hxs : ∀ x ∈ xs, ∀ n ∈ x.spoken names, i.Knows n) :
    FollowsAt names i (CheckedM.sayAll names xs >>= fun _ => Pure.pure a)
      (fun s => (a, { s with findings := s.findings ++ xs })) s :=
  (sayAll hs hxs).bind (f := fun _ => Pure.pure a) (g := fun _ => Pure.pure a) (.pure a)

end FollowsAt

namespace Follows

theorem pure (a : α) : Follows names i (pure a) (pure a) := fun _ _ => .pure a

theorem bind {x : CheckedM α} {y : ExpandM α} {f : α → CheckedM β} {g : α → ExpandM β}
    (hx : Follows names i x y) (hf : ∀ a, Follows names i (f a) (g a)) :
    Follows names i (x >>= f) (y >>= g) := fun s hs =>
  (hx s hs).bind (hf _ _ ((hx s hs).grows.interner.trans hs))

end Follows

end

/-! ## 3. One member -/

section

variable {i : Interner} {v : Vocabulary} {s : ExpandState}

/-- A method's own name is all that is looked up to generate code for it. -/
theorem Extension.followsAt_generate {e : Extension} {target : Target}
    (hs : s.supply.interner.Extends i) (hname : i.Knows e.method.name) :
    FollowsAt v.annotations i (e.generateChecked v target) (e.generate v target) s := by
  have hgroup : FollowsAt v.annotations i (CheckedM.freshFrom e.method.name)
      (ExpandM.freshFrom e.method.name) s := .freshFrom (hs.knows hname)
  let group := ((ExpandM.freshFrom e.method.name).run s).1
  let s₁ := ((ExpandM.freshFrom e.method.name).run s).2
  have hs₁ : s₁.supply.interner.Extends i := hgroup.grows.interner.trans hs
  have hknown : ∀ n ∈ [e.method.name, group], s₁.supply.interner.Knows n := by
    simp only [List.forall_mem_cons, List.not_mem_nil, false_imp_iff, implies_true, and_true]
    exact ⟨hs₁.knows hname, Interner.knows_of_lookup? (Interner.lookup?_intern _ _)⟩
  unfold generateChecked generate stagedNames
  cases e.kind with
  | staged =>
    simp only [bind_assoc, pure_bind]
    have hevidence : Follows v.annotations i
        ((splitTypeParams e.method.tparams target).2.mapM fun _ => CheckedM.fresh "evidence")
        ((splitTypeParams e.method.tparams target).2.mapM fun _ => ExpandM.fresh "evidence") :=
      mapM_related Follows.pure Follows.bind fun _ _ _ _ => .fresh "evidence"
    refine hgroup.bind ?_
    have hcontext : FollowsAt v.annotations i _ _ s₁ := .fresh "c"
    refine hcontext.bind ?_
    have hself : FollowsAt v.annotations i _ _ ((ExpandM.fresh "c").run s₁).2 := .fresh "selfTree"
    refine hself.bind (.spell ?_ ?_)
    · exact fun n hn => (hself.grows.trans hcontext.grows).interner.knows (hknown n hn)
    · have hs₃ := (hself.grows.trans hcontext.grows).interner.trans hs₁
      exact (hevidence _ hs₃).bind (.pure _)
  | runtime =>
    refine hgroup.bind (.spell hknown (.sayAll_then _ hs₁ fun x hx n hn => ?_))
    rw [List.mem_singleton.mp hx] at hn
    rwa [List.mem_singleton.mp hn]

/-- A verdict is carried out, whatever it is, if the names in what it finds are known, and the name
of the method that is expanded. -/
theorem Verdict.followsAt_carryOut {x : Verdict} (hs : s.supply.interner.Extends i)
    (hfindings : ∀ finding ∈ x.findings, ∀ n ∈ finding.spoken v.annotations, i.Knows n)
    (hname : ∀ spelling e target, x = .extend spelling e target → i.Knows e.method.name) :
    FollowsAt v.annotations i (x.carryOutChecked v) (x.carryOut v) s := by
  cases x with
  | keep remarks => exact .sayAll_then Expansion.kept hs hfindings
  | drop faults => exact .sayAll_then Expansion.dropped hs hfindings
  | extend spelling e target =>
    have hspelling := (List.forall_mem_append.mp hfindings).1
    have hsay : FollowsAt v.annotations i _ (ExpandM.reportFaults spelling) s :=
      .sayAll hs hspelling
    have hs₁ := hsay.grows.interner.trans hs
    exact hsay.bind ((e.followsAt_generate hs₁ (hname _ _ _ rfl)).bind (.pure _))

/-- **A look at a member.** -/
theorem followsAt_expand (hv : ∀ n ∈ v.names, i.Knows n) (scope : Scope) {t : Tree}
    (ht : t.IsRecognised v.annotations → ∀ n ∈ t.names, i.Knows n)
    (hs : s.supply.interner.Extends i) :
    FollowsAt v.annotations i (expandChecked v scope t) (expand v scope t) s := by
  rw [expandChecked_eq_carryOut, expand_eq_carryOut]
  refine Verdict.followsAt_carryOut hs (fun x hx => ?_) fun spelling e target hj => ?_
  · exact x.forall_mem_spoken hv (names_of_mem_findings_of_asks hv ht x hx)
  · have hnames := ht (isRecognised_of_extend hj)
    obtain ⟨d, f, hd, -, rfl, -, -⟩ := judge_extend hj
    have hmem : d.name ∈ t.shape.names := by simp [hd, Shape.names, MethodDef.names]
    exact hnames d.name (Tree.mem_names_iff.mpr (.inr (.inl hmem)))

/-! ## 4. A unit -/

/-- **The checked run of a unit** does what the run without checks does, as long as there is room. -/
theorem follows_expandUnit (hv : ∀ n ∈ v.names, i.Knows n) {t : Tree}
    (ht : t.AsksOnly v i.Knows) :
    Follows v.annotations i (expandUnitChecked v t) (expandUnit v t) := by
  refine expandRounds_related_on (R := Follows v.annotations i) Follows.pure Follows.bind
    (P := Tree.AsksOnly v i.Knows) (fun ht hc => ht.child hc) ?_ _ t ht
  intro scope t ht β f g hf s hs
  have hlook : FollowsAt v.annotations i (expandChecked v scope t) (expand v scope t) s :=
    followsAt_expand hv scope (ht t .refl) hs
  exact hlook.bind (hf _ (all_asksOnly_expand ht scope s) _ (hlook.grows.interner.trans hs))

/-- What is found speaks of names that are known to begin with. -/
theorem knows_of_mem_findings (hv : ∀ n ∈ v.names, i.Knows n) {t : Tree}
    (ht : t.AsksOnly v i.Knows) (supply : NameSupply) :
    ∀ x ∈ ((expandUnit v t).run { supply }).2.findings, ∀ n ∈ x.names, i.Knows n := by
  obtain ⟨count, new, hadds, hnew, -⟩ :=
    mirrors_expandUnit (v := v) Function.injective_id hv ht { supply }
  rw [hadds.findings, List.nil_append]
  exact hnew

/-! ## 5. A unit in a session -/

theorem Interner.completes_internChecked (text : String) (i : Interner) :
    Completes ((internChecked text).run i) (i.intern text)
      ((i.intern text).2.size ≤ UInt32.size) := by
  have hrun : (internChecked text).run i = (i.tryIntern text).mapError .internerFull := rfl
  rw [hrun]
  rcases i.tryIntern_cases text with hok | ⟨hfull, e, he⟩
  · rw [hok]
    exact .inl rfl
  · rw [he]
    exact .inr ⟨hfull, _, rfl, trivial⟩

/-- Strings are taken in one after the other. -/
theorem completes_mapM_internChecked (texts : List String) {i : Interner}
    {r : List Name × Interner}
    (h : (texts.mapM fun s => (modifyGet (·.intern s) : StateM Interner Name)).run i = r) :
    Completes ((texts.mapM Interner.internChecked).run i) r (r.2.size ≤ UInt32.size) := by
  subst h
  induction texts generalizing i with
  | nil => exact .inl rfl
  | cons text texts ih =>
    have hgrows := (Interns.mapM (fun s => .intern s) texts).grows (i.intern text).2
    rw [run_mapM_cons, List.mapM_cons, StateT.run_bind]
    refine (Interner.completes_internChecked text i).bind hgrows.size_le.trans ?_
    rw [StateT.run_bind]
    exact ih.bind id (.inl rfl)

/-- The words have the names that they have without the checks. -/
theorem Vocabulary.completes_internChecked {o : Options} {i j : Interner}
    (h : (Vocabulary.intern o).run i = (v, j)) :
    Completes ((Vocabulary.internChecked o).run i) (v, j) (j.size ≤ UInt32.size) := by
  have hwords : Completes ((o.words.mapM Interner.internChecked).run i) (v.names, j)
      (j.size ≤ UInt32.size) := by
    refine completes_mapM_internChecked o.words ?_
    rw [← names_intern, run_map_pair, h]
  have hread : (Vocabulary.intern o).run j = (v, j) := by
    have hagain := (interns_intern o).again i j
    rw [h] at hagain
    exact hagain (.refl j)
  rw [internChecked, StateT.run_bind]
  refine hwords.bind id (.inl ?_)
  rw [StateT.run_modifyGet, hread]
  rfl

end

/-- The supply of names in the end, when a session has expanded a unit on its own. -/
def Session.finalSupply (s : Session) (t : Tree) : NameSupply :=
  let (v, interner) := (Vocabulary.intern s.config.toOptions).run s.interner
  ((expandUnit v t).run { supply := { interner } }).2.supply

/-- **A session that expands a unit with all checks** comes to what it comes to without. -/
theorem Session.completes_expandReports (s : Session) {t : Tree}
    (ht : ∀ n ∈ t.names, s.interner.Knows n) :
    Completes (s.expandReportsChecked t) (s.expandReports t) (s.finalSupply t).Fits := by
  obtain ⟨v, i, hv⟩ : ∃ v i, (Vocabulary.intern s.config.toOptions).run s.interner = (v, i) :=
    ⟨_, _, rfl⟩
  let start : ExpandState := { supply := { interner := i } }
  let out := (expandUnit v t).run start
  have hwords : ∀ n ∈ v.names, i.Knows n := fun n hn => Vocabulary.knows_of_mem_names hv hn
  have hasks : t.AsksOnly v i.Knows :=
    Tree.asksOnly_of_names fun n hn => (Vocabulary.extends_of_intern hv).knows (ht n hn)
  have hfollows := follows_expandUnit hwords hasks start (.refl i)
  have hfinal : s.finalSupply t = out.2.supply := by simp only [finalSupply, hv, out, start]
  have hreports : out.2.findings.map (·.diagnostic v.annotations i) =
      out.2.findings.map (·.diagnostic v.annotations out.2.supply.interner) := by
    refine List.map_congr_left fun x hx => (x.diagnostic_congr fun n hn => ?_).symm
    have hknown := x.forall_mem_spoken hwords (knows_of_mem_findings hwords hasks _ x hx)
    exact (extends_expandUnit v t start).text_eq (hknown n hn)
  have hrun : s.expandReports t =
      (out.1, out.2.findings.map (·.diagnostic v.annotations i), out.2.supply.interner) := by
    rw [hreports]
    exact expandReports_of_run hv rfl
  rw [hfinal, hrun]
  have hvocabulary := Vocabulary.completes_internChecked hv
  refine hvocabulary.bind (fun hfits => (hfits.of_grows hfollows.grows).interner) ?_
  exact hfollows.run.bind id (.inl rfl)

/-! ## 6. The names in what comes out -/

/-- The names in an expanded unit are known, and so is all that was known. -/
theorem Session.knows_names_expandReports (s : Session) {t : Tree}
    (ht : ∀ n ∈ t.names, s.interner.Knows n) :
    ∀ n ∈ (s.expandReports t).1.names, (s.expandReports t).2.2.Knows n := by
  obtain ⟨v, i, hv⟩ : ∃ v i, (Vocabulary.intern s.config.toOptions).run s.interner = (v, i) :=
    ⟨_, _, rfl⟩
  let start : ExpandState := { supply := { interner := i } }
  have hgrows := extends_expandUnit v t start
  rw [expandReports_of_run hv rfl]
  intro n hn
  rcases names_expandUnit v t start n hn with hn | hn | hn
  · exact hgrows.knows ((Vocabulary.extends_of_intern hv).knows (ht n hn))
  · exact hgrows.knows (Vocabulary.knows_of_mem_names hv hn)
  · exact (Interner.mem_gained.mp hn).2

namespace Flattened

/-- All names in a flattened value. -/
def names (f : Flattened) : List Name :=
  f.expr.names ++ f.captures.flatMap fun c => c.tree.names ++ c.tpe.names

end Flattened

/-- Binding tags brings in the names of captures only. -/
theorem Tree.names_bindTags (names : List Name) (t : Tree) :
    ∀ n ∈ (t.bindTags names).names, n ∈ t.names ∨ n ∈ names := by
  have htag : ∀ {t u : Tree}, t.boundTag? names = some u → ∀ n ∈ u.names, n ∈ names := by
    intro t u hu n hn
    unfold boundTag? at hu
    split at hu
    · obtain ⟨name, hname, rfl⟩ := Option.map_eq_some_iff.mp hu
      have hone : n = name := by
        simpa [names_eq, ident, ofShape, Shape.names, Shape.annotations, Shape.children] using hn
      exact hone ▸ List.mem_of_getElem? hname
    · contradiction
  refine names_replace (f := bound? names) (fun {t u} hu n hn => .inr ?_) t
  unfold bound? at hu
  split at hu
  · exact htag hu n hn
  · exact htag hu n hn

namespace Flattened

/-- The names in an emitted block are those of the value and of its captures. -/
theorem names_emitWith (f : Flattened) (names : List Name) :
    ∀ n ∈ (f.emitWith names).names, n ∈ f.names ∨ n ∈ names := by
  have hbinding : ∀ c ∈ f.captures, ∀ name ∈ names,
      ∀ n ∈ (binding names c name).names, n ∈ f.names ∨ n ∈ names := by
    intro c hc name hname n hn
    have hin : ∀ n, n ∈ c.tree.names ∨ n ∈ c.tpe.names → n ∈ f.names := fun n hn =>
      List.mem_append_right _ (List.mem_flatMap.mpr ⟨c, hc, List.mem_append.mpr hn⟩)
    have hparts : n = name ∨ n ∈ c.tpe.names ∨ n ∈ (c.tree.bindTags names).names := by
      rw [Tree.mem_names_iff] at hn
      simpa [binding, Tree.valueDef, Tree.ofShape, ValueDef.ofInit, Shape.names,
        Shape.annotations, Shape.children, ValueDef.children] using hn
    rcases hparts with rfl | hn | hn
    · exact .inr hname
    · exact .inl (hin n (.inr hn))
    · exact (Tree.names_bindTags names c.tree n hn).imp_left fun hn => hin n (.inl hn)
  intro n hn
  have hparts : (∃ b ∈ f.captures.zipWith (binding names) names, n ∈ b.names) ∨
      n ∈ (f.expr.bindTags names).names := by
    rw [Tree.mem_names_iff] at hn
    simpa [emitWith, Tree.block, Tree.ofShape, Shape.names, Shape.annotations, Shape.children,
      or_and_right, exists_or] using hn
  rcases hparts with ⟨b, hb, hn⟩ | hn
  · obtain ⟨k, hk, rfl⟩ := List.mem_iff_getElem.mp hb
    rw [List.getElem_zipWith] at hn
    exact hbinding _ (List.getElem_mem _) _ (List.getElem_mem _) n hn
  · exact (Tree.names_bindTags names f.expr n hn).imp_left (List.mem_append_left _)

/-- **The names in an emitted value are known.** -/
theorem knows_names_emit (f : Flattened) {i : Interner} (hf : ∀ n ∈ f.names, i.Knows n) :
    ∀ n ∈ (f.emit.run i).1.names, (f.emit.run i).2.Knows n := by
  by_cases hnil : f.captures = []
  · rw [run_emit_of_nil hnil]
    exact fun n hn => hf n (List.mem_append_left _ hn)
  · have hgrows := f.interns_emit.grows i
    rw [run_emit_of_ne_nil hnil] at hgrows ⊢
    intro n hn
    rcases f.names_emitWith _ n hn with hn | hn
    · exact hgrows.knows (hf n hn)
    · obtain ⟨k, hk⟩ := List.mem_iff_getElem?.mp hn
      exact Interner.knows_of_lookup? (lookup?_getElem_captureNames _ i hk)

end Flattened

/-! ## 7. The main statement -/

/-- **No check fails but for want of room.**  Take a session that knows the names in a unit.  If
there is room for all that is interned and generated when the unit is expanded, the run with all its
checks comes to what the run without them does, to the same reports and names too.  If that run
stops it is for want of room, so never over a name, the position of an annotation or the channel of
a report.  All names in the expanded unit are known in the end, and it can be written.  The same
holds of the expression that is emitted for a flattened value whose names are known. -/
theorem Session.expandReports_checked (s : Session) {t : Tree} {flat : Flattened}
    (ht : ∀ n ∈ t.names, s.interner.Knows n) (hflat : ∀ n ∈ flat.names, s.interner.Knows n) :
    let out := s.expandReports t
    let emitted := flat.emit.run s.interner
    ((s.finalSupply t).Fits → s.expandReportsChecked t = .ok out) ∧
      (∀ e, s.expandReportsChecked t = .error e → e.IsForRoom) ∧
      (∀ n ∈ out.1.names, out.2.2.Knows n) ∧ out.1.print? out.2.2 = some (out.1.print out.2.2) ∧
      (∀ n ∈ emitted.1.names, emitted.2.Knows n) ∧
      emitted.1.print? emitted.2 = some (emitted.1.print emitted.2) := by
  have hcompletes := s.completes_expandReports ht
  have hnames := s.knows_names_expandReports ht
  have hemitted := flat.knows_names_emit hflat
  exact ⟨hcompletes.eq_ok, fun _ => hcompletes.isForRoom, hnames, Tree.print?_of_knows hnames,
    hemitted, Tree.print?_of_knows hemitted⟩

/-- A staged extension in the old spelling with a runtime extension in its body, and a value with a
capture that is spliced. -/
theorem Session.expandReports_checked_nested :
    let v := Vocabulary.usual
    let s : Session := { interner := ((Vocabulary.intern {}).run .new).2 }
    let inner := Tree.extensionDef v.annotations.runtime v.tree (.typeIdent v.list .nowhere) none
      (.ident v.selfName .nowhere) .nowhere
    let outer := Tree.extensionDef v.annotations.deprecated v.apply (.typeIdent v.list .nowhere)
      (some (.typeIdent v.list .nowhere))
      (.block [inner] (.ident v.selfName .nowhere) .nowhere) .nowhere
    let unit := Tree.ofShape (.package v.list [outer]) .nowhere
    let flat : Flattened := {
      expr := .apply (.ident v.apply .nowhere) [.splice (.tag 0 .nowhere) .nowhere] .nowhere
      captures := [
        { tree := .ident v.tree .nowhere, tpe := .typeIdent v.list .nowhere, origin := .leaf }] }
    let out := s.expandReports unit
    s.expandReportsChecked unit = .ok out ∧ out.2.1.length = 2 ∧
      (∀ n ∈ out.1.names, out.2.2.Knows n) ∧ (out.1.print? out.2.2).isSome ∧
      (flat.emit.run s.interner).1.print? (flat.emit.run s.interner).2 =
        some "\x7b val capture$0: List = tree; Apply(capture$0) \x7d" := by
  intro v s inner outer unit flat
  have hunit : ∀ n ∈ unit.names, s.interner.Knows n := by decide +kernel
  have hflat : ∀ n ∈ flat.names, s.interner.Knows n := by decide +kernel
  have hfits : (s.finalSupply unit).Fits := by decide +kernel
  obtain ⟨hrun, -, hnames, hprint, -, hexpr⟩ := s.expandReports_checked hunit hflat
  have htext : (flat.emit.run s.interner).1.print (flat.emit.run s.interner).2 =
      "\x7b val capture$0: List = tree; Apply(capture$0) \x7d" := by decide +kernel
  have hreports : (s.expandReports unit).2.1.length = 2 := by decide +kernel
  exact ⟨hrun hfits, hreports, hnames, Option.isSome_iff_exists.mpr ⟨_, hprint⟩, htext ▸ hexpr⟩

/-- Over a name that is not known the run does stop. -/
example :
    let v := Vocabulary.usual
    let target := Tree.apply (.ident ⟨99⟩ .nowhere) [] .nowhere
    let member := Tree.extensionDef v.annotations.staged v.apply target none
      (.ident v.selfName .nowhere) .nowhere
    Session.expandReportsChecked {} (.ofShape (.package v.list [member]) .nowhere) =
      .error (.unknownName ⟨99⟩) := by
  rfl

end Enrich
