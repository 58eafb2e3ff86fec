import Mathlib.Data.List.Forall2

/-!
Computations that succeed, taken apart: a sequence succeeds if each of its steps does.
-/
universe u v w

theorem List.Forall₂.exists_left {α : Type u} {β : Type v} {R : α → β → Prop} {xs : List α}
    {ys : List β} (h : List.Forall₂ R xs ys) {y : β} (hy : y ∈ ys) : ∃ x ∈ xs, R x y := by
  induction h with
  | nil => cases hy
  | cons hxy _ ih =>
    rcases List.mem_cons.mp hy with rfl | hy
    · exact ⟨_, List.mem_cons_self, hxy⟩
    · obtain ⟨x, hx, hxy⟩ := ih hy
      exact ⟨x, List.mem_cons_of_mem _ hx, hxy⟩

/-- Where each item is related to one thing at most, related lists are items and what they are mapped to. -/
theorem List.forall₂_iff_map {α : Type u} {β : Type v} {R : α → β → Prop} {p : α → Prop} {g : α → β}
    {xs : List α} {ys : List β} (h : ∀ x ∈ xs, ∀ y, R x y ↔ p x ∧ y = g x) :
    List.Forall₂ R xs ys ↔ (∀ x ∈ xs, p x) ∧ ys = xs.map g := by
  induction xs generalizing ys with
  | nil => simp
  | cons x xs ih =>
    rw [List.forall_mem_cons] at h
    rw [List.forall₂_cons_left_iff, List.forall_mem_cons, List.map_cons]
    simp only [h.1, ih h.2]
    constructor
    · rintro ⟨_, _, ⟨hx, rfl⟩, ⟨hxs, rfl⟩, rfl⟩
      exact ⟨⟨hx, hxs⟩, rfl⟩
    · rintro ⟨⟨hx, hxs⟩, rfl⟩
      exact ⟨_, _, ⟨hx, rfl⟩, ⟨hxs, rfl⟩, rfl⟩

/-- A list is read item by item. -/
theorem Option.mapM_eq_some {α : Type u} {β : Type v} {f : α → Option β} {xs : List α} {ys : List β} :
    xs.mapM f = some ys ↔ List.Forall₂ (fun x y => f x = some y) xs ys := by
  induction xs generalizing ys with
  | nil => simp [eq_comm]
  | cons x xs ih =>
    simp only [List.mapM_cons, List.forall₂_cons_left_iff, Option.bind_eq_bind, Option.bind_eq_some_iff,
      ih, Option.pure_def, Option.some.injEq]
    constructor
    · rintro ⟨y, hy, ys, hys, rfl⟩
      exact ⟨y, ys, hy, hys, rfl⟩
    · rintro ⟨y, ys, hy, hys, rfl⟩
      exact ⟨y, hy, ys, hys, rfl⟩

namespace Except
variable {ε : Type u} {α : Type v} {β : Type w}

@[simp] theorem ok_bind (a : α) (f : α → Except ε β) : (ok a : Except ε α).bind f = f a := rfl
@[simp] theorem error_bind (e : ε) (f : α → Except ε β) :
    (error e : Except ε α).bind f = error e := rfl
@[simp] theorem ok_map (f : α → β) (a : α) : (ok a : Except ε α).map f = ok (f a) := rfl
@[simp] theorem error_map (f : α → β) (e : ε) : (error e : Except ε α).map f = error e := rfl

theorem bind_eq_ok {x : Except ε α} {f : α → Except ε β} {b : β} :
    x.bind f = ok b ↔ ∃ a, x = ok a ∧ f a = ok b := by
  cases x <;> simp

theorem map_eq_ok {x : Except ε α} {f : α → β} {b : β} :
    x.map f = ok b ↔ ∃ a, x = ok a ∧ f a = b := by
  cases x <;> simp

theorem map_eq_error {x : Except ε α} {f : α → β} {e : ε} : x.map f = error e ↔ x = error e := by
  cases x <;> simp

theorem monad_bind {α β : Type v} (x : Except ε α) (f : α → Except ε β) : x >>= f = x.bind f := rfl
theorem monad_pure {α : Type v} (a : α) : (pure a : Except ε α) = ok a := rfl

theorem monad_bind_eq_ok {α β : Type v} {x : Except ε α} {f : α → Except ε β} {b : β} :
    x >>= f = ok b ↔ ∃ a, x = ok a ∧ f a = ok b := bind_eq_ok

theorem bind_pure {α β : Type v} (x : Except ε α) (f : α → β) : (x >>= fun a => pure (f a)) = x.map f := by
  cases x <;> rfl

theorem mapError_eq_ok {δ : Type w} {x : Except ε α} {f : ε → δ} {a : α} :
    x.mapError f = ok a ↔ x = ok a := by
  cases x <;> simp [Except.mapError]

theorem mapError_eq_error {δ : Type w} {x : Except ε α} {f : ε → δ} {e : δ} :
    x.mapError f = error e ↔ ∃ e', x = error e' ∧ f e' = e := by
  cases x <;> simp [Except.mapError]

theorem mapM_cons {β : Type v} (f : α → Except ε β) (x : α) (xs : List α) :
    (x :: xs).mapM f = (f x).bind fun y => (xs.mapM f).map (y :: ·) := by
  rw [List.mapM_cons, monad_bind]
  rfl

/-- A list is mapped item by item. -/
theorem mapM_eq_ok {β : Type v} {f : α → Except ε β} {xs : List α} {ys : List β} :
    xs.mapM f = ok ys ↔ List.Forall₂ (fun x y => f x = ok y) xs ys := by
  induction xs generalizing ys with
  | nil => simp [monad_pure, eq_comm]
  | cons x xs ih =>
    rw [mapM_cons, bind_eq_ok, List.forall₂_cons_left_iff]
    simp only [map_eq_ok, ih]
    constructor
    · rintro ⟨y, hy, ys', hys, rfl⟩
      exact ⟨y, ys', hy, hys, rfl⟩
    · rintro ⟨y, ys', hy, hys, rfl⟩
      exact ⟨y, hy, ys', hys, rfl⟩

theorem mapM_congr {β : Type v} {f g : α → Except ε β} {xs : List α} (h : ∀ x ∈ xs, f x = g x) :
    xs.mapM f = xs.mapM g := by
  induction xs with
  | nil => rfl
  | cons x xs ih =>
    rw [List.forall_mem_cons] at h
    rw [mapM_cons, mapM_cons, h.1, ih h.2]

/-- A list whose items are all mapped is mapped, to what the items are mapped to. -/
theorem mapM_ok {β : Type v} {f : α → Except ε β} {p : α → β → Prop} {xs : List α}
    (h : ∀ x ∈ xs, ∃ y, f x = ok y ∧ p x y) :
    ∃ ys, xs.mapM f = ok ys ∧ List.Forall₂ p xs ys := by
  induction xs with
  | nil => exact ⟨[], rfl, .nil⟩
  | cons x xs ih =>
    rw [List.forall_mem_cons] at h
    obtain ⟨⟨y, hy, hp⟩, h⟩ := h
    obtain ⟨ys, hys, hps⟩ := ih h
    exact ⟨y :: ys, by rw [mapM_cons, hy, hys]; rfl, .cons hp hps⟩

/-- What every step of a run preserves, the run does. -/
theorem foldlM_preserves {β : Type} {f : β → α → Except ε β} {p : β → Prop} {xs : List α}
    (step : ∀ x ∈ xs, ∀ b c, p b → f b x = .ok c → p c) {b c : β} (hb : p b)
    (h : xs.foldlM f b = .ok c) : p c := by
  induction xs generalizing b with
  | nil =>
    cases h
    exact hb
  | cons x xs ih =>
    rw [List.forall_mem_cons] at step
    rw [List.foldlM_cons] at h
    obtain ⟨next, hnext, hrest⟩ := monad_bind_eq_ok.mp h
    exact ih step.2 (step.1 b next hb hnext) hrest

/-- The error of a list is that of one of its items. -/
theorem exists_mem_of_mapM_error {β : Type v} {f : α → Except ε β} {xs : List α} {e : ε}
    (h : xs.mapM f = error e) : ∃ x ∈ xs, f x = error e := by
  induction xs with
  | nil => cases h
  | cons x xs ih =>
    rw [mapM_cons] at h
    cases hx : f x with
    | error e' =>
      rw [hx] at h
      cases h
      exact ⟨x, List.mem_cons_self, hx⟩
    | ok y =>
      rw [hx, ok_bind, map_eq_error] at h
      obtain ⟨x', hx', he⟩ := ih h
      exact ⟨x', List.mem_cons_of_mem _ hx', he⟩

theorem eq_ok_iff_getD (default : α) {x : Except ε α} {a : α} :
    x = ok a ↔ (∃ b, x = ok b) ∧ a = x.toOption.getD default := by
  cases x <;> simp [Except.toOption, eq_comm]

/-- A list that is mapped has every item mapped, each on its own. -/
theorem mapM_eq_ok_map {β : Type v} {f : α → Except ε β} (default : β) {xs : List α} {ys : List β} :
    xs.mapM f = ok ys ↔
      (∀ x ∈ xs, ∃ y, f x = ok y) ∧ ys = xs.map fun x => (f x).toOption.getD default := by
  rw [mapM_eq_ok]
  exact List.forall₂_iff_map fun x _ y => eq_ok_iff_getD default

theorem toOption_getD {x : Except ε α} {a : α} (h : ∃ b, x = ok b) : x = ok (x.toOption.getD a) := by
  obtain ⟨b, rfl⟩ := h
  rfl

/-- Items are mapped together with their keys. -/
theorem mapM_key_eq_ok {α β : Type v} {f : α → Except ε β} (default : β) {xs : List α}
    {ps : List (α × β)} :
    (xs.mapM fun x => (f x).map (x, ·)) = ok ps ↔
      (∀ x ∈ xs, ∃ y, f x = ok y) ∧ ps = xs.map fun x => (x, (f x).toOption.getD default) := by
  rw [mapM_eq_ok]
  refine List.forall₂_iff_map fun x _ p => ?_
  cases f x <;> simp [Except.toOption, eq_comm]

theorem toOption_eq_some {x : Except ε α} {a : α} : x.toOption = some a ↔ x = ok a := by
  cases x <;> simp [Except.toOption]

theorem toOption_eq_none {x : Except ε α} : x.toOption = none ↔ ∃ e, x = error e := by
  cases x <;> simp [Except.toOption]

theorem isSome_toOption {x : Except ε α} : x.toOption.isSome ↔ ∃ a, x = ok a := by
  cases x <;> simp [Except.toOption]

theorem toOption_map (x : Except ε α) (f : α → β) : (x.map f).toOption = x.toOption.map f := by
  cases x <;> rfl

theorem toOption_bind (x : Except ε α) (f : α → Except ε β) :
    (x.bind f).toOption = x.toOption.bind fun a => (f a).toOption := by
  cases x <;> rfl

end Except
