/-!
# Runs of steps

What a step with a state does is read off its runs: one run is the yield and the state after.  The
equations here say how runs of lists of steps go, from first to last.

* `run_mapM_cons`: the first element, then the others.
* `exists_of_mem_run_mapM`, `exists_mem_run_mapM`: the outcome has what is made of the elements.
-/

namespace Enrich

variable {σ α β : Type}

theorem run_pure_pair (a : α) (s : σ) : (pure a : StateM σ α).run s = (a, s) := rfl

@[simp] theorem run_bind_fst (x : StateM σ α) (f : α → StateM σ β) (s : σ) :
    (x >>= f).run s = (f (x.run s).1).run (x.run s).2 := rfl

theorem run_map_pair (f : α → β) (x : StateM σ α) (s : σ) :
    (f <$> x).run s = (f (x.run s).1, (x.run s).2) := rfl

/-- A loop runs on its first member, and from the state this leaves on the others. -/
theorem run_mapM_cons (f : α → StateM σ β) (a : α) (l : List α) (s : σ) :
    ((a :: l).mapM f).run s =
      (((f a).run s).1 :: ((l.mapM f).run ((f a).run s).2).1,
        ((l.mapM f).run ((f a).run s).2).2) := by
  rw [List.mapM_cons]
  rfl

/-- A loop over two lists runs on the second from where it left off. -/
theorem run_mapM_append (f : α → StateM σ β) : ∀ (l l' : List α) (s : σ),
    ((l ++ l').mapM f).run s =
      (((l.mapM f).run s).1 ++ ((l'.mapM f).run ((l.mapM f).run s).2).1,
        ((l'.mapM f).run ((l.mapM f).run s).2).2)
  | [], _, _ => rfl
  | a :: l, l', s => by
    rw [List.cons_append, run_mapM_cons, run_mapM_cons, run_mapM_append f l l']
    rfl

/-- What is in the outcome was made of an element, in some state. -/
theorem exists_of_mem_run_mapM {f : α → StateM σ β} {b : β} : ∀ {l : List α} {s : σ},
    b ∈ ((l.mapM f).run s).1 → ∃ a ∈ l, ∃ s₁, ((f a).run s₁).1 = b
  | [], _, h => absurd h List.not_mem_nil
  | a :: l, s, h => by
    rw [run_mapM_cons] at h
    rcases List.mem_cons.mp h with rfl | h
    · exact ⟨a, List.mem_cons_self, s, rfl⟩
    · obtain ⟨a', ha', hs⟩ := exists_of_mem_run_mapM h
      exact ⟨a', List.mem_cons_of_mem _ ha', hs⟩

/-- What is made of an element, in some state, is in the outcome. -/
theorem exists_mem_run_mapM {f : α → StateM σ β} {a : α} {l : List α} (h : a ∈ l) (s : σ) :
    ∃ s₁, ((f a).run s₁).1 ∈ ((l.mapM f).run s).1 := by
  obtain ⟨before, after, rfl⟩ := List.append_of_mem h
  rw [run_mapM_append, run_mapM_cons]
  exact ⟨((before.mapM f).run s).2, List.mem_append_right _ List.mem_cons_self⟩

theorem length_run_mapM (f : α → StateM σ β) : ∀ (l : List α) (s : σ),
    ((l.mapM f).run s).1.length = l.length
  | [], _ => rfl
  | a :: l, s => by
    rw [run_mapM_cons, List.length_cons, List.length_cons, length_run_mapM f l]

/-- A list whose elements are left as they are is left as it is. -/
theorem run_mapM_of_fixed {f : α → StateM σ α} : ∀ {l : List α},
    (∀ a ∈ l, ∀ s, (f a).run s = (a, s)) → ∀ s, (l.mapM f).run s = (l, s)
  | [], _, _ => rfl
  | a :: l, h, s => by
    rw [run_mapM_cons, h a List.mem_cons_self,
      run_mapM_of_fixed fun b hb => h b (List.mem_cons_of_mem _ hb)]

theorem mapM_congr {m : Type → Type} [Monad m] [LawfulMonad m] {f g : α → m β} :
    ∀ {l : List α}, (∀ a ∈ l, f a = g a) → l.mapM f = l.mapM g
  | [], _ => rfl
  | a :: l, h => by
    rw [List.mapM_cons, List.mapM_cons, h a List.mem_cons_self,
      mapM_congr fun b hb => h b (List.mem_cons_of_mem _ hb)]

end Enrich
