import RecordGraph.Proofs.Outcome
import RecordGraph.Run.Trace

/-!
What runs hand over to be rendered. A sequence of runs hands over what each of them does, up to the
first that fails.
-/
namespace RecordGraph

namespace Run
variable {α β : Type} {b : Batch}

instance : LawfulMonad Run := LawfulMonad.mk' Run
  (fun run => by
    obtain ⟨calls, handed, outcome⟩ := run
    cases outcome <;> simp [Functor.map, Run.bind, Run.pure, ofExcept])
  (fun _ _ => rfl)
  (fun run next last => by
    obtain ⟨calls, handed, outcome⟩ := run
    cases outcome with
    | error e => rfl
    | ok a =>
      simp only [Bind.bind, Run.bind]
      cases (next a).outcome <;> simp)

@[simp] theorem handed_pure (a : α) : (pure a : Run α).handed = [] := rfl

theorem mem_handed_bind {run : Run α} {next : α → Run β} :
    b ∈ (run >>= next).handed ↔
      b ∈ run.handed ∨ ∃ a, run.outcome = .ok a ∧ b ∈ (next a).handed := by
  obtain ⟨calls, handed, outcome⟩ := run
  cases outcome <;> simp [Bind.bind, Run.bind]

theorem outcome_bind {run : Run α} {next : α → Run β} {c : β} :
    (run >>= next).outcome = .ok c ↔ ∃ a, run.outcome = .ok a ∧ (next a).outcome = .ok c := by
  obtain ⟨calls, handed, outcome⟩ := run
  cases outcome <;> simp [Bind.bind, Run.bind]

theorem outcome_bind_ok {run : Run α} {a : α} (h : run.outcome = .ok a) (next : α → Run β) :
    (run >>= next).outcome = (next a).outcome := by
  obtain ⟨calls, handed, outcome⟩ := run
  obtain rfl : outcome = .ok a := h
  rfl

theorem outcome_map (run : Run α) (f : α → β) :
    (run >>= fun a => pure (f a)).outcome = run.outcome.map f := by
  obtain ⟨calls, handed, outcome⟩ := run
  cases outcome <;> rfl

theorem ofExcept_bind {γ : Type} (x : Except QueryError α) (f : α → Except QueryError β)
    (next : β → Run γ) :
    ofExcept (x.bind f) >>= next = ofExcept x >>= fun a => ofExcept (f a) >>= next := by
  cases x <;> rfl

theorem ofExcept_map {γ : Type} (x : Except QueryError α) (f : α → β) (next : β → Run γ) :
    ofExcept (x.map f) >>= next = ofExcept x >>= fun a => next (f a) := by
  cases x <;> rfl

/-- What a run and every continuation of it make of their outcomes, they make together. -/
theorem outcome_bind_maps {γ : Type} {run : Run α} {run' : Run γ} {g : α → γ} {next : α → Run β}
    {next' : γ → Run β} {f : β → β} (h : run'.outcome = run.outcome.map g)
    (hnext : ∀ a, (next' (g a)).outcome = (next a).outcome.map f) :
    (run' >>= next').outcome = (run >>= next).outcome.map f := by
  obtain ⟨calls, handed, outcome⟩ := run
  obtain ⟨calls', handed', outcome'⟩ := run'
  obtain rfl : outcome' = outcome.map g := h
  cases outcome with
  | error e => rfl
  | ok a => exact hnext a

/-- What every continuation of a run makes of its outcome, the run makes of its own. -/
theorem outcome_bind_map (run : Run α) {next other : α → Run β} {f : β → β}
    (h : ∀ a, (other a).outcome = (next a).outcome.map f) :
    (run >>= other).outcome = (run >>= next).outcome.map f :=
  outcome_bind_maps (g := id) (by cases run.outcome <;> rfl) h

theorem handed_bind {run : Run α} {a : α} (h : run.outcome = .ok a) (next : α → Run β) :
    (run >>= next).handed = run.handed ++ (next a).handed := by
  obtain ⟨calls, handed, outcome⟩ := run
  obtain rfl : outcome = .ok a := h
  rfl

theorem handed_bind_quiet {run : Run α} {a : α} (h : run.outcome = .ok a) (quiet : run.handed = [])
    (next : α → Run β) : (run >>= next).handed = (next a).handed := by
  rw [handed_bind h, quiet, List.nil_append]

theorem handed_bind_eq_nil {run : Run α} {next : α → Run β} (quiet : run.handed = [])
    (hnext : ∀ a, (next a).handed = []) : (run >>= next).handed = [] := by
  cases h : run.outcome with
  | error e => simpa [Bind.bind, Run.bind, h] using quiet
  | ok a => rw [handed_bind_quiet h quiet, hnext]

theorem hand_bind (next : Unit → Run β) : (hand b >>= next).handed = b :: (next ()).handed := rfl

/-- What is handed over for a list is handed over for one of its items. -/
theorem mem_handed_each {f : α → Run β} {xs : List α} (h : b ∈ (each f xs).handed) :
    ∃ x ∈ xs, b ∈ (f x).handed := by
  induction xs with
  | nil => cases h
  | cons x xs ih =>
    obtain h | ⟨y, -, h⟩ := mem_handed_bind.mp h
    · exact ⟨x, List.mem_cons_self, h⟩
    · obtain h | ⟨ys, -, h⟩ := mem_handed_bind.mp h
      · obtain ⟨x', hx', h⟩ := ih h
        exact ⟨x', List.mem_cons_of_mem _ hx', h⟩
      · cases h

/-- A list runs through as its items do. -/
theorem outcome_each_eq_ok {f : α → Run β} {xs : List α} {ys : List β} :
    (each f xs).outcome = .ok ys ↔ List.Forall₂ (fun x y => (f x).outcome = .ok y) xs ys := by
  induction xs generalizing ys with
  | nil =>
    rw [List.forall₂_nil_left_iff]
    exact ⟨fun h => by cases h; rfl, fun h => by rw [h]; rfl⟩
  | cons x xs ih =>
    rw [List.forall₂_cons_left_iff]
    constructor
    · intro h
      obtain ⟨y, hy, h⟩ := outcome_bind.mp h
      obtain ⟨ys', hys, h⟩ := outcome_bind.mp h
      cases h
      exact ⟨y, ys', hy, ih.mp hys, rfl⟩
    · rintro ⟨y, ys', hy, hys, rfl⟩
      exact outcome_bind.mpr ⟨y, hy, outcome_bind.mpr ⟨ys', ih.mpr hys, rfl⟩⟩

/-- A list that runs through has run through for every item, and hands over all that these do. -/
theorem outcome_each {f : α → Run β} {xs : List α} {ys : List β} (h : (each f xs).outcome = .ok ys) :
    ∀ x ∈ xs, ∃ y, (f x).outcome = .ok y ∧ ∀ b ∈ (f x).handed, b ∈ (each f xs).handed := by
  induction xs generalizing ys with
  | nil => simp
  | cons x xs ih =>
    obtain ⟨y, hy, h⟩ := outcome_bind.mp h
    obtain ⟨ys', hys, -⟩ := outcome_bind.mp h
    refine List.forall_mem_cons.mpr ⟨⟨y, hy, fun b hb => mem_handed_bind.mpr (.inl hb)⟩, ?_⟩
    intro x' hx'
    obtain ⟨y', hy', hsub⟩ := ih hys x' hx'
    exact ⟨y', hy', fun b hb =>
      mem_handed_bind.mpr (.inr ⟨y, hy, mem_handed_bind.mpr (.inl (hsub b hb))⟩)⟩

end Run

namespace Store

theorem answer_eq_ok {α : Type} {x : Except StoreError α} {a : α} :
    answer x = .ok a ↔ x = .ok a := by
  cases x <;> simp [answer]

end Store
end RecordGraph
