import Enrich.Proofs.Failure
/-!
# What the queue keeps of its reports

The queue decides about each diagnostic when it comes, by what it holds at that time.  Here its
decisions are told from the reports as a whole: which of them are kept, how many errors were left
out, and in which order the kept ones come out.

Three filters meet in one step.  A double is refused if it equals a diagnostic that is held, not one
that was reported; an error is refused if as many errors are held as the limit allows; and a refused
error counts unless it was a double.  They can be told apart because, as long as there is room, the
errors held are all the errors there were.

* `Queue.Meets`: what is said of a queue, from its reports alone.
* `Queue.Meets.add`: one report.
* `Queue.SaysLeftOut`: the report at the end that errors were left out.
* `Queue.meets_run`: any requests to a new queue.
-/

namespace Enrich

/-! ## 1. Reports -/

/-- The elements of a list, each with those before it. -/
def withEarlier {α : Type} (l : List α) : List (List α × α) :=
  l.zipIdx.map fun p => (l.take p.2, p.1)

theorem withEarlier_concat {α : Type} (l : List α) (a : α) :
    withEarlier (l ++ [a]) = withEarlier l ++ [(l, a)] := by
  have hold : l.zipIdx.map (fun p => ((l ++ [a]).take p.2, p.1)) = withEarlier l :=
    List.map_congr_left fun p hp => by
      have hlt : p.2 < l.length := by simpa using List.snd_lt_of_mem_zipIdx hp
      rw [List.take_append_of_le_length (Nat.le_of_lt hlt)]
  rw [withEarlier, List.zipIdx_append, List.map_append, hold]
  simp

namespace QueueConfig

variable (c : QueueConfig)

/-- The diagnostics without the doubles that are refused. -/
def distinct (ds : List Diagnostic) : List Diagnostic := if c.deduplicate then ds.eraseDups else ds

/-- As many diagnostics as the limit allows. -/
def limited (ds : List Diagnostic) : List Diagnostic :=
  if c.errorLimit = 0 then ds else ds.take c.errorLimit

/-- The errors that differ. -/
def errors (ds : List Diagnostic) : List Diagnostic := c.distinct (ds.filter Diagnostic.isError)

/-- The diagnostics that differ and are not errors. -/
def warnings (ds : List Diagnostic) : List Diagnostic :=
  c.distinct (ds.filter fun d => !d.isError)

/-- A diagnostic is kept after `earlier` ones if it is no double, and if it is an error, too, if
there were not as many errors as the limit allows. -/
def Keeps (earlier : List Diagnostic) (d : Diagnostic) : Prop :=
  (c.deduplicate = true → d ∉ earlier) ∧
    (d.isError = true → c.errorLimit = 0 ∨ (c.errors earlier).length < c.errorLimit)

variable {c} {ds : List Diagnostic} {d : Diagnostic}

theorem mem_distinct : d ∈ c.distinct ds ↔ d ∈ ds := by
  rw [distinct]
  split
  · exact List.mem_eraseDups
  · rfl

theorem distinct_concat (h : c.deduplicate = true → d ∉ ds) :
    c.distinct (ds ++ [d]) = c.distinct ds ++ [d] := by
  rw [distinct, distinct]
  split
  · rename_i hc
    simp [List.eraseDups_append, List.removeAll, h hc, List.eraseDups_cons]
  · rfl

theorem distinct_concat_of_double (h : c.deduplicate = true) (hd : d ∈ ds) :
    c.distinct (ds ++ [d]) = c.distinct ds := by
  simp [distinct, h, List.eraseDups_append, List.removeAll, hd]

/-- A further report adds to what is left without repetitions, or adds nothing. -/
theorem prefix_distinct_concat : c.distinct ds <+: c.distinct (ds ++ [d]) := by
  by_cases h : c.deduplicate = true ∧ d ∈ ds
  · exact ⟨[], by rw [List.append_nil, distinct_concat_of_double h.1 h.2]⟩
  · rw [distinct_concat fun hc hd => h ⟨hc, hd⟩]
    exact List.prefix_append _ _

section

variable {p : Diagnostic → Bool}

theorem distinct_filter_concat_of_neg (hp : p d = false) :
    c.distinct ((ds ++ [d]).filter p) = c.distinct (ds.filter p) := by
  simp [List.filter_append, hp]

theorem distinct_filter_concat_of_double (h : c.deduplicate = true) (hd : d ∈ ds) :
    c.distinct ((ds ++ [d]).filter p) = c.distinct (ds.filter p) := by
  cases hp : p d with
  | false => exact distinct_filter_concat_of_neg hp
  | true =>
    rw [List.filter_append, List.filter_cons_of_pos hp]
    exact distinct_concat_of_double h (List.mem_filter.mpr ⟨hd, hp⟩)

/-- What is no double comes last among those of its kind. -/
theorem distinct_filter_concat (h : c.deduplicate = true → d ∉ ds) :
    c.distinct ((ds ++ [d]).filter p) = c.distinct (ds.filter p) ++ [d].filter p := by
  cases hp : p d with
  | false => simp [hp]
  | true =>
    rw [List.filter_append, List.filter_cons_of_pos hp]
    exact distinct_concat fun hc hd => h hc (List.mem_filter.mp hd).1

end

/-- As long as there is room, nothing is cut off. -/
theorem limited_eq_self (h : c.errorLimit = 0 ∨ ds.length ≤ c.errorLimit) : c.limited ds = ds := by
  rw [limited]
  split
  · rfl
  · exact List.take_of_length_le (h.resolve_left ‹_›)

/-- When there is no room, nothing is added. -/
theorem limited_of_prefix {ds' : List Diagnostic} (hpos : 0 < c.errorLimit)
    (hfull : c.errorLimit ≤ ds.length) (h : ds <+: ds') : c.limited ds' = c.limited ds := by
  obtain ⟨rest, rfl⟩ := h
  have hlimit : c.errorLimit ≠ 0 := Nat.ne_of_gt hpos
  rw [limited, limited, if_neg hlimit, if_neg hlimit, List.take_append_of_le_length hfull]

end QueueConfig

/-! ## 2. What comes out -/

/-- What points at `a` comes before what points at `b`: it starts first, or it starts with it and
does not stop later.  What points nowhere comes after what points somewhere. -/
def ComesBefore (a b : Option Span) : Prop :=
  ∀ t, b = some t → ∃ s, a = some s ∧ (s.start < t.start ∨ s.start = t.start ∧ s.stop ≤ t.stop)

/-- Diagnostics are in the order of their primary spans; those that point at one place, or nowhere,
are in the order in which they were. -/
structure IsSortedFrom (sorted ds : List Diagnostic) : Prop where
  perm : sorted.Perm ds
  pairwise : sorted.Pairwise fun a b => ComesBefore a.primarySpan? b.primarySpan?
  stable : ∀ place, sorted.filter (fun d => d.primarySpan? = place) =
    ds.filter fun d => d.primarySpan? = place

namespace Queue

theorem before_iff {a b : Diagnostic} :
    before a b = true ↔ ComesBefore a.primarySpan? b.primarySpan? := by
  rw [before, ComesBefore]
  cases a.primarySpan? <;> cases b.primarySpan? <;> simp [Span.le_iff]

theorem before_trans (a b c : Diagnostic) (hab : before a b = true) (hbc : before b c = true) :
    before a c = true := by
  rw [before_iff] at *
  intro u hu
  obtain ⟨t, ht, htu⟩ := hbc u hu
  obtain ⟨s, hs, hst⟩ := hab t ht
  exact ⟨s, hs, by omega⟩

theorem before_total (a b : Diagnostic) : (before a b || before b a) = true := by
  rw [before, before]
  cases a.primarySpan? <;> cases b.primarySpan? <;> simp [Span.le_total]

theorem isSortedFrom_mergeSort (ds : List Diagnostic) : IsSortedFrom (ds.mergeSort before) ds where
  perm := List.mergeSort_perm ds before
  pairwise := (List.pairwise_mergeSort before_trans before_total ds).imp before_iff.mp
  stable place := by
    let here : Diagnostic → Bool := fun d => d.primarySpan? = place
    have hperm := (List.mergeSort_perm ds before).filter here
    -- those of one place are sorted as they are, so sorting keeps them in their order
    have hplace : (ds.filter here).Pairwise fun a b => before a b = true := by
      refine List.pairwise_iff_forall_sublist.mpr fun {a b} hab => ?_
      have hmem : ∀ d ∈ [a, b], d.primarySpan? = place := fun d hd => by
        simpa [here] using (List.mem_filter.mp (hab.subset hd)).2
      rw [before_iff, hmem a (by simp), hmem b (by simp)]
      exact fun t ht => ⟨t, ht, .inr ⟨rfl, t.stop.le_refl⟩⟩
    have hsub : (ds.filter here).Sublist (ds.mergeSort before) :=
      List.sublist_mergeSort before_trans before_total hplace List.filter_sublist
    have hsub' : (ds.filter here).Sublist ((ds.mergeSort before).filter here) := by
      simpa using hsub.filter here
    exact (hsub'.eq_of_length hperm.length_eq.symm).symm

/-! ## 3. One request -/

/-- What is said of a queue, from the reports since it was new or emptied. -/
structure Meets (q : Queue) (c : QueueConfig) (reports : List (Diagnostic × Bool)) : Prop where
  config : q.config = c
  /-- What was answered with yes is held. -/
  held : q.held = (reports.filter Prod.snd).map Prod.fst
  errors : q.held.filter Diagnostic.isError = c.limited (c.errors (reports.map Prod.fst))
  warnings : q.held.filter (fun d => !d.isError) = c.warnings (reports.map Prod.fst)
  answers : ∀ earlier report, (earlier, report) ∈ withEarlier reports →
    (report.2 = true ↔ c.Keeps (earlier.map Prod.fst) report.1)
  errorCount : q.errorCount = (reports.map Prod.fst).countP Diagnostic.isError
  /-- The errors that were refused and no doubles of what was kept before. -/
  suppressed : q.suppressed = (withEarlier reports).countP fun p =>
    p.2.1.isError && !p.2.2 && !(c.deduplicate && p.1.contains (p.2.1, true))

namespace Meets

variable {q : Queue} {c : QueueConfig} {reports : List (Diagnostic × Bool)} {d : Diagnostic}

theorem new (c : QueueConfig) : Meets { config := c } c [] where
  config := rfl
  held := rfl
  errors := by simp [QueueConfig.errors, QueueConfig.distinct, QueueConfig.limited]
  warnings := by simp [QueueConfig.warnings, QueueConfig.distinct]
  answers _ _ h := by simp [withEarlier] at h
  errorCount := rfl
  suppressed := rfl

/-- What is held is what was taken, and nothing else. -/
theorem mem_held_iff (h : q.Meets c reports) : d ∈ q.held ↔ (d, true) ∈ reports := by
  simp [h.held]

/-- What is held was reported. -/
theorem mem_of_mem_held (h : q.Meets c reports) (hd : d ∈ q.held) : d ∈ reports.map Prod.fst :=
  List.mem_map_of_mem (h.mem_held_iff.mp hd)

/-- The limit is reached if there is one and as many errors were reported; with a check for doubles,
as many that differ. -/
theorem limitReached_iff (h : q.Meets c reports) : q.limitReached = true ↔
    0 < c.errorLimit ∧ c.errorLimit ≤ (c.errors (reports.map Prod.fst)).length := by
  have hcount : q.heldErrors = (c.limited (c.errors (reports.map Prod.fst))).length := by
    rw [heldErrors, List.countP_eq_length_filter, h.errors]
  rw [limitReached, hcount, h.config, QueueConfig.limited]
  by_cases hpos : c.errorLimit = 0
  · simp [hpos]
  · simp only [if_neg hpos, List.length_take, Bool.and_eq_true, decide_eq_true_eq]
    omega

/-- As long as there is room, all the errors that differ are held. -/
theorem room (h : q.Meets c reports) (hroom : ¬ q.limitReached = true) :
    c.errorLimit = 0 ∨ (c.errors (reports.map Prod.fst)).length < c.errorLimit := by
  rw [h.limitReached_iff] at hroom
  omega

/-- What is not held, and would be taken in, was not reported. -/
theorem not_mem_of_taken (h : q.Meets c reports) (hdouble : ¬ (c.deduplicate = true ∧ d ∈ q.held))
    (hroom : ¬ (d.isError = true ∧ q.limitReached = true)) (hc : c.deduplicate = true) :
    d ∉ reports.map Prod.fst := by
  intro hd
  refine hdouble ⟨hc, ?_⟩
  cases he : d.isError with
  | true =>
    have hlimit : c.limited (c.errors (reports.map Prod.fst)) = c.errors (reports.map Prod.fst) :=
      QueueConfig.limited_eq_self ((h.room fun hr => hroom ⟨he, hr⟩).imp id Nat.le_of_lt)
    have hmem : d ∈ q.held.filter Diagnostic.isError := by
      rw [h.errors, hlimit]
      exact QueueConfig.mem_distinct.mpr (List.mem_filter.mpr ⟨hd, he⟩)
    exact (List.mem_filter.mp hmem).1
  | false =>
    have hmem : d ∈ q.held.filter fun d => !d.isError := by
      rw [h.warnings]
      exact QueueConfig.mem_distinct.mpr (List.mem_filter.mpr ⟨hd, by rw [he]; rfl⟩)
    exact (List.mem_filter.mp hmem).1

/-- One report more, with its answer: the counts are told apart from what is held. -/
theorem concat (h : q.Meets c reports) {q' : Queue} {answer : Bool}
    (hanswer : answer = true ↔ c.Keeps (reports.map Prod.fst) d)
    (hconfig : q'.config = q.config) (hheld : q'.held = q.held ++ if answer then [d] else [])
    (herrors : q'.held.filter Diagnostic.isError =
      c.limited (c.errors (reports.map Prod.fst ++ [d])))
    (hwarnings : q'.held.filter (fun d => !d.isError) = c.warnings (reports.map Prod.fst ++ [d]))
    (hcount : q'.errorCount = q.errorCount + d.isError.toNat)
    (hsuppressed : q'.suppressed = q.suppressed +
      (d.isError && !answer && !(c.deduplicate && reports.contains (d, true))).toNat) :
    q'.Meets c (reports ++ [(d, answer)]) where
  config := hconfig.trans h.config
  held := by
    rw [hheld, h.held, List.filter_append, List.map_append]
    cases answer <;> rfl
  errors := by simpa using herrors
  warnings := by simpa using hwarnings
  answers := by
    intro earlier report hmem
    rw [withEarlier_concat, List.mem_append, List.mem_singleton] at hmem
    rcases hmem with hmem | hmem
    · exact h.answers earlier report hmem
    · obtain ⟨rfl, rfl⟩ := Prod.mk.inj hmem
      exact hanswer
  errorCount := by
    rw [hcount, h.errorCount, List.map_append, List.countP_append]
    cases hd : d.isError <;> simp [hd]
  suppressed := by
    rw [hsuppressed, h.suppressed, withEarlier_concat, List.countP_append, List.countP_singleton]
    cases d.isError && !answer && !(c.deduplicate && reports.contains (d, true)) <;> rfl

/-- **One report.** -/
theorem add (h : q.Meets c reports) (d : Diagnostic) :
    (q.add d).2.Meets c (reports ++ [(d, (q.add d).1)]) := by
  have hconfig := h.config
  rcases q.add_cases d with ⟨hc, hmem, hadd⟩ | ⟨hdouble, he, hfull, hadd⟩ | ⟨hdouble, hroom, hadd⟩
  · -- a double
    rw [hconfig] at hc
    have hreported := h.mem_of_mem_held hmem
    rw [hadd]
    refine h.concat ?_ rfl (by simp) ?_ ?_ rfl ?_
    · exact iff_of_false Bool.false_ne_true fun hkeeps => hkeeps.1 hc hreported
    · rw [QueueConfig.errors, QueueConfig.distinct_filter_concat_of_double hc hreported]
      exact h.errors
    · rw [QueueConfig.warnings, QueueConfig.distinct_filter_concat_of_double hc hreported]
      exact h.warnings
    · simp [hc, h.mem_held_iff.mp hmem]
  · -- an error too many
    rw [hconfig] at hdouble
    obtain ⟨hpos, hmany⟩ := h.limitReached_iff.mp hfull
    have hprefix : c.errors (reports.map Prod.fst) <+: c.errors (reports.map Prod.fst ++ [d]) := by
      rw [QueueConfig.errors, QueueConfig.errors, List.filter_append, List.filter_cons_of_pos he]
      exact QueueConfig.prefix_distinct_concat
    have hfirst : (c.deduplicate && reports.contains (d, true)) = false := by
      rw [h.mem_held_iff] at hdouble
      simpa using hdouble
    rw [hadd]
    refine h.concat ?_ rfl (by simp) ?_ ?_ rfl ?_
    · refine iff_of_false Bool.false_ne_true fun hkeeps => ?_
      have := hkeeps.2 he
      omega
    · rw [QueueConfig.limited_of_prefix hpos hmany hprefix]
      exact h.errors
    · rw [QueueConfig.warnings, QueueConfig.distinct_filter_concat_of_neg (by simp [he])]
      exact h.warnings
    · simp only [he, hfirst]
      rfl
  · -- a diagnostic that is taken in
    rw [hconfig] at hdouble
    have hnew := h.not_mem_of_taken hdouble hroom
    rw [hadd]
    refine h.concat ?_ rfl (by simp) ?_ ?_ rfl (by simp)
    · exact iff_of_true rfl ⟨hnew, fun he => h.room fun hfull => hroom ⟨he, hfull⟩⟩
    · change (q.held ++ [d]).filter Diagnostic.isError = _
      rw [List.filter_append, h.errors]
      cases he : d.isError with
      | true =>
        -- with room for one more, nothing is cut off before or after
        have hlimit := h.room fun hfull => hroom ⟨he, hfull⟩
        have hlater : (c.errors (reports.map Prod.fst ++ [d])) =
            c.errors (reports.map Prod.fst) ++ [d].filter Diagnostic.isError :=
          QueueConfig.distinct_filter_concat hnew
        rw [hlater, QueueConfig.limited_eq_self (hlimit.imp id Nat.le_of_lt),
          QueueConfig.limited_eq_self (hlimit.imp id fun hlt => by simp [he]; omega)]
      | false =>
        rw [QueueConfig.errors, QueueConfig.errors, QueueConfig.distinct_filter_concat_of_neg he]
        simp [he]
    · change (q.held ++ [d]).filter (fun d => !d.isError) = _
      rw [List.filter_append, h.warnings, QueueConfig.warnings, QueueConfig.warnings,
        QueueConfig.distinct_filter_concat hnew]

end Meets

/-! ## 4. Any requests -/

/-- What a queue is asked. -/
inductive Request where
  | add (d : Diagnostic)
  | flush
deriving DecidableEq, Repr

/-- A queue with its reports since it was new or emptied, and what was answered to them. -/
structure Log where
  queue : Queue
  reports : List (Diagnostic × Bool) := []

def Log.step (l : Log) : Request → Log
  | .add d => { queue := (l.queue.add d).2, reports := l.reports ++ [(d, (l.queue.add d).1)] }
  | .flush => { queue := l.queue.flush.2 }

/-- **One request.** -/
theorem Log.meets_step {l : Log} {c : QueueConfig} (h : l.queue.Meets c l.reports) :
    ∀ r : Request, (l.step r).queue.Meets c (l.step r).reports
  | .add d => h.add d
  | .flush => by
    have hnew := Meets.new c
    rwa [← h.config] at hnew ⊢

/-- **Any requests.** -/
theorem Log.meets_steps {c : QueueConfig} : ∀ (requests : List Request) {l : Log},
    l.queue.Meets c l.reports →
      (requests.foldl Log.step l).queue.Meets c (requests.foldl Log.step l).reports
  | [], _, h => h
  | r :: requests, _, h => Log.meets_steps requests (Log.meets_step h r)

/-- The report at the end that errors were left out.  Its message has both numbers, the limit first,
and it points nowhere. -/
structure SaysLeftOut (limit suppressed : Nat) (d : Diagnostic) : Prop where
  code : d.code = .tooManyErrors
  codeText : d.code.text = "E9002"
  severity : d.severity = .error
  message : d.message = "stopped reporting after " ++ toString limit ++ " errors ("
    ++ toString suppressed ++ " more not shown)"
  labels : d.labels = []
  attachments : d.attachments = [.note "raise the error limit to see every error"]

theorem saysLeftOut_tooManyErrors (limit suppressed : Nat) :
    SaysLeftOut limit suppressed (tooManyErrors limit suppressed) :=
  ⟨rfl, rfl, rfl, rfl, rfl, rfl⟩

/-- **What the queue keeps of its reports**, after any requests to a new queue.  It is as `Meets`
says, and so is what comes out: the diagnostics that are held, sorted by place, and then one report
of the limit and of the number of errors that were left out, if there were any; and the queue is as
new. -/
theorem meets_run (c : QueueConfig) (requests : List Request) :
    let l := requests.foldl Log.step { queue := { config := c } }
    l.queue.Meets c l.reports ∧
      (∃ sorted last, l.queue.flush.1 = sorted ++ last ∧ IsSortedFrom sorted l.queue.held ∧
        (l.queue.suppressed = 0 → last = []) ∧
        (0 < l.queue.suppressed → ∃ d, last = [d] ∧
          SaysLeftOut c.errorLimit l.queue.suppressed d)) ∧
      l.queue.flush.2 = { config := c } := by
  intro l
  have hmeets : l.queue.Meets c l.reports := Log.meets_steps requests (Meets.new c)
  refine ⟨hmeets, ⟨_, _, l.queue.flush_fst, isSortedFrom_mergeSort _, ?_, ?_⟩, ?_⟩
  · exact fun hnone => if_neg (Nat.not_lt_of_le (Nat.le_of_eq hnone))
  · intro hsome
    rw [hmeets.config]
    exact ⟨_, if_pos hsome, saysLeftOut_tooManyErrors _ _⟩
  · rw [flush_snd, hmeets.config]

/-- With room for one error, the double of that one is not among those that were left out. -/
example :
    let error (message : String) (place : Nat) : Diagnostic :=
      { code := .missingResultType, message, labels := [.primary ⟨place, place⟩ ""] }
    let q : Queue := { config := { errorLimit := 1 } }
    let q := q.addAll [error "b" 2, error "a" 1, error "b" 2, error "a" 1]
    q.flush.1.map Diagnostic.message =
      ["b", "stopped reporting after 1 errors (2 more not shown)"] := by
  decide +kernel

end Queue

end Enrich
