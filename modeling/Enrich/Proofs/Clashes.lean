import Enrich.Proofs.Freshness
import Enrich.Proofs.Preconditions
import Mathlib.Data.List.Nodup
/-!
# Which names of a generator clash

The names that a generator binds come from three places.  Those of the context, of the evidence and
of the receiver's tree are generated, the parameters are those of the method, and the receiver goes
by the name that the options give it.

A generated name is new to the interner (`Gains`), so it is no parameter and not the receiver's, and
no two of them are the same.  The receiver's name is kept apart from nothing: a method may call a
parameter what the receiver is called.  Nothing speaks against such an extension, and its generator
binds the name twice.  There is no other clash.

* `Extension.valueNames_generator`: the names that a generator binds, from first to last.
* `Extension.stagedTrees_of_synthesize`: generated names are new, and no two are the same.
* `valueNames_nodup_iff`: the main statement.
-/

namespace Enrich

/-! ## 1. The names that a method binds -/

/-- The name of the value that a statement defines. -/
def Tree.valueName? (t : Tree) : Option Name :=
  match t.shape with
  | .valueDef d => some d.name
  | _ => none

/-- The values that a method binds: its parameters, then the values that the block in its body
defines. -/
def MethodDef.valueNames (d : MethodDef Tree Tree) : List Name :=
  d.params.map ValueDef.name ++
    match d.body.shape with
    | .block stats _ => stats.filterMap Tree.valueName?
    | _ => []

/-- The method of an object that has one member. -/
def Tree.onlyMethod? (t : Tree) : Option (MethodDef Tree Tree) :=
  match t.shape with
  | .objectDef d =>
    match d.body.map Tree.shape with
    | [.methodDef g] => some g
    | _ => none
  | _ => none

/-! ## 2. The names that a generator binds -/

namespace Extension

/-- Each type parameter that stays with the method has evidence under a name of its own. -/
theorem map_name_evidenceGroups (g : Generator) {inner : List TypeParam} {names : List Name}
    (h : names.length = inner.length) :
    (evidenceGroups g inner names).flatten.map ValueDef.name = names := by
  unfold evidenceGroups
  split
  · rename_i hinner
    rw [List.isEmpty_iff.mp hinner] at h
    exact (List.eq_nil_of_length_eq_zero h).symm
  · rw [List.flatten_cons, List.flatten_nil, List.append_nil]
    calc _ = List.zipWith (fun _ n => n) inner names := List.map_zipWith
      _ = (inner.zip names).map Prod.snd := by rw [List.zip, List.map_zipWith]
      _ = names := List.map_snd_zip (Nat.le_of_eq h)

/-- **The names that a generator binds**, from first to last. -/
theorem valueNames_generator (v : Vocabulary) (e : Extension) (target : Target)
    {names : StagedNames}
    (h : names.evidence.length = (splitTypeParams e.method.tparams target).2.length) :
    (e.generator v target names).valueNames =
      names.context :: (e.method.params.map ValueDef.name ++ names.evidence) ++
        [names.selfTree, v.selfName] := by
  have hstaged : ∀ g : Generator, e.method.params.map (ValueDef.name ∘ g.stagedParam) =
      e.method.params.map ValueDef.name := fun _ => rfl
  rw [MethodDef.valueNames, params_generator, List.map_cons, List.map_append, List.map_map,
    map_name_evidenceGroups _ h, hstaged]
  rfl

/-- **Generated names are new, and no two are the same.**  A staged extension that is replaced has
its code written with such names. -/
theorem stagedTrees_of_synthesize {v : Vocabulary} {e : Extension} (hk : e.kind = .staged)
    {s : ExpandState} {trees : List Tree} (hok : ((e.synthesize v).run s).1 = some trees) :
    ∃ target names, trees = e.stagedTrees v target names ∧
      names.evidence.length = (splitTypeParams e.method.tparams target).2.length ∧
      names.all.Nodup ∧ ∀ n ∈ names.all, ¬ s.supply.interner.Knows n := by
  obtain ⟨target, -, hcode⟩ := exists_generate_of_synthesize hok
  obtain ⟨-, hall, hlength⟩ := e.gains_stagedNames target s
  refine ⟨target, _, ?_, hlength, ?_, fun n hn => ?_⟩
  · rw [generate, hk] at hcode
    exact hcode.symm
  · rw [← hall]
    exact Interner.nodup_gained _ _
  · rw [← hall] at hn
    exact (Interner.mem_gained.mp hn).1

end Extension

/-! ## 3. The main statement -/

/-- New names around names that are known: no two of all these are the same if no two of either are,
and a known name is among them only if it is among the known ones. -/
private theorem nodup_around {known : Name → Prop} {first last n : Name} {old rest : List Name}
    (hnodup : (first :: last :: rest).Nodup) (hnew : ∀ m ∈ first :: last :: rest, ¬ known m)
    (hold : ∀ m ∈ old, known m) (holdNodup : old.Nodup) (hn : known n) :
    (first :: (old ++ rest) ++ [last, n]).Nodup ↔ n ∉ old := by
  have hperm : (first :: (old ++ rest) ++ [last]).Perm (old ++ first :: last :: rest) :=
    calc (first :: (old ++ rest) ++ [last]).Perm (last :: first :: (old ++ rest)) :=
          List.perm_append_singleton _ _
      _ |>.Perm (first :: last :: (old ++ rest)) := List.Perm.swap _ _ _
      _ |>.Perm (first :: (old ++ last :: rest)) := List.perm_middle.symm.cons _
      _ |>.Perm (old ++ first :: last :: rest) := List.perm_middle.symm
  have hall : (old ++ first :: last :: rest).Nodup := by
    refine List.nodup_append.mpr ⟨holdNodup, hnodup, ?_⟩
    rintro m hm m' hm' rfl
    exact hnew m hm' (hold m hm)
  have hsplit : first :: (old ++ rest) ++ [last, n] = first :: (old ++ rest) ++ [last] ++ [n] := by
    rw [List.append_assoc]
    rfl
  rw [hsplit, (hperm.append_right [n]).nodup_iff, List.nodup_append]
  constructor
  · rintro ⟨-, -, hne⟩ hmem
    exact hne n (List.mem_append_left _ hmem) n (List.mem_singleton_self n) rfl
  · intro hmem
    refine ⟨hall, List.nodup_singleton n, ?_⟩
    rintro m hm m' hm' rfl
    rw [List.mem_singleton] at hm'
    rcases List.mem_append.mp hm with hm | hm
    · exact hmem (hm' ▸ hm)
    · exact hnew m hm (hm' ▸ hn)

/-- **A generator binds a name twice exactly if a parameter is called what the receiver is called.**
Take a staged extension whose parameters have distinct names, known to the interner, and which is
replaced.  Its generator binds the context, the parameters, the evidence, the receiver's tree and
the receiver.  The names that are generated for it are new and distinct; so no two of all these are
the same, unless the receiver's name is that of a parameter. -/
theorem valueNames_nodup_iff {o : Options} {i₀ i : Interner} {v : Vocabulary}
    (hv : (Vocabulary.intern o).run i₀ = (v, i)) {s : ExpandState}
    (hs : s.supply.interner.Extends i) {e : Extension} (hk : e.kind = .staged)
    (hknown : ∀ p ∈ e.method.params, s.supply.interner.Knows p.name)
    (hdistinct : (e.method.params.map ValueDef.name).Nodup) {trees : List Tree}
    (hok : ((e.synthesize v).run s).1 = some trees) :
    ∃ wrapper companion g names, trees = [wrapper, companion] ∧
      companion.onlyMethod? = some g ∧
      g.valueNames = StagedNames.context names ::
        (e.method.params.map ValueDef.name ++ names.evidence) ++ [names.selfTree, v.selfName] ∧
      (g.valueNames.Nodup ↔ v.selfName ∉ e.method.params.map ValueDef.name) := by
  obtain ⟨target, names, htrees, hlength, hnodup, hnew⟩ := e.stagedTrees_of_synthesize hk hok
  have hvalues := e.valueNames_generator v target hlength
  refine ⟨_, _, e.generator v target names, names, htrees, rfl, hvalues, ?_⟩
  have hself : s.supply.interner.Knows v.selfName :=
    Nat.lt_of_lt_of_le (Vocabulary.knows_of_mem_names hv (by simp [Vocabulary.names])) hs.size_le
  have hold : ∀ n ∈ e.method.params.map ValueDef.name, s.supply.interner.Knows n := by
    intro n hn
    obtain ⟨p, hp, rfl⟩ := List.mem_map.mp hn
    exact hknown p hp
  rw [hvalues]
  refine nodup_around ?_ ?_ hold hdistinct hself
  · exact hnodup.of_cons
  · exact fun n hn => hnew n (List.mem_cons_of_mem _ hn)

/-- A staged extension with a parameter called `self`, which is its body: it is replaced without a
word, and its generator binds `self` twice. -/
theorem valueNames_nodup_iff_receiver :
    let v := Vocabulary.usual
    let i := ((Vocabulary.intern {}).run .new).2
    let target := Tree.typeIdent v.list .nowhere
    let e : Extension :=
      { kind := .staged
        payload := target
        method := { mods := {}, name := v.apply, tparams := []
                    groups := [[.param v.selfName target .nowhere]], result := some target
                    body := .ident v.selfName .nowhere }
        span := .nowhere }
    let s : ExpandState := { supply := { interner := i } }
    ((e.synthesize v).run s).2.findings = [] ∧
      ∃ wrapper companion g names,
        ((e.synthesize v).run s).1 = some [wrapper, companion] ∧
          companion.onlyMethod? = some g ∧
          g.valueNames = StagedNames.context names :: ([v.selfName] ++ names.evidence) ++
            [names.selfTree, v.selfName] ∧
          ¬ g.valueNames.Nodup := by
  intro v i target e s
  have hv : (Vocabulary.intern {}).run .new = (v, i) := rfl
  have hknown : ∀ p ∈ e.method.params, i.Knows p.name := by decide +kernel
  have hdistinct : (e.method.params.map ValueDef.name).Nodup := List.nodup_singleton v.selfName
  obtain ⟨trees, hok⟩ : ∃ trees, ((e.synthesize v).run s).1 = some trees := ⟨_, rfl⟩
  obtain ⟨wrapper, companion, g, names, rfl, hg, hvalues, hiff⟩ :=
    valueNames_nodup_iff hv (.refl i) rfl hknown hdistinct hok
  refine ⟨rfl, wrapper, companion, g, names, hok, hg, hvalues, fun hnodup => ?_⟩
  exact hiff.mp hnodup (List.mem_singleton_self v.selfName)

end Enrich
