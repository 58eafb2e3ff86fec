import RecordGraph.Proofs.Value.Canonical

/-!
What is read is within the reader's limit: a value that is read is nested no deeper than the containers
that could still be opened, and putting its maps in order nests it no deeper.
-/
namespace RecordGraph.Value

theorem depth_node (key : String) (v : Value) : (node key v).depth = v.depth + 1 := by
  rw [node, depth, depthOfEntries, depthOfEntries, Nat.max_eq_left (Nat.zero_le _)]

theorem depthOfItems_le {xs : List Value} {n : Nat} :
    depthOfItems xs ≤ n ↔ ∀ x ∈ xs, x.depth ≤ n := by
  induction xs with
  | nil => simp [depthOfItems]
  | cons x xs ih => rw [depthOfItems, Nat.max_le, ih, List.forall_mem_cons]

theorem depthOfEntries_le {es : List (String × Value)} {n : Nat} :
    depthOfEntries es ≤ n ↔ ∀ e ∈ es, e.2.depth ≤ n := by
  induction es with
  | nil => simp [depthOfEntries]
  | cons e es ih => rw [depthOfEntries, Nat.max_le, ih, List.forall_mem_cons]

/-- With this much fuel no more containers are opened than may be. -/
structure Bounded (fuel : Nat) : Prop where
  value {depth : Nat} {cs r : List Char} {v : Value}
    (h : readValue fuel depth cs = .ok (v, r)) : v.depth ≤ depth
  items {depth : Nat} {first : Bool} {cs r : List Char} {xs : List Value}
    (h : readItems fuel depth first cs = .ok (xs, r)) : depthOfItems xs ≤ depth
  entries {depth : Nat} {first : Bool} {cs r : List Char} {es : List (String × Value)}
    (h : readEntries fuel depth first cs = .ok (es, r)) : depthOfEntries es ≤ depth

section step
variable {fuel depth : Nat} {cs r : List Char}

theorem Bounded.readItems_succ (bounded : Bounded fuel) {first : Bool} {xs : List Value}
    (h : readItems (fuel + 1) depth first cs = .ok (xs, r)) : depthOfItems xs ≤ depth := by
  rw [readItems] at h
  split at h
  · cases h
  · cases h
    exact Nat.zero_le _
  · split at h
    · cases h
    · rename_i x behind hx
      obtain ⟨⟨ys, r'⟩, hys, heq⟩ := Except.map_eq_ok.mp h
      cases heq
      rw [depthOfItems, Nat.max_le]
      exact ⟨bounded.value hx, bounded.items hys⟩

theorem Bounded.readEntries_succ (bounded : Bounded fuel) {first : Bool}
    {es : List (String × Value)} (h : readEntries (fuel + 1) depth first cs = .ok (es, r)) :
    depthOfEntries es ≤ depth := by
  rw [readEntries] at h
  split at h
  · cases h
  · cases h
    exact Nat.zero_le _
  · split at h
    · cases h
    · split at h
      · cases h
      · split at h
        · cases h
        · rename_i x behind hx
          obtain ⟨⟨fs, r'⟩, hfs, heq⟩ := Except.map_eq_ok.mp h
          cases heq
          rw [depthOfEntries, Nat.max_le]
          exact ⟨bounded.value hx, bounded.entries hfs⟩

theorem Bounded.readValue_succ (bounded : Bounded fuel) {v : Value}
    (h : readValue (fuel + 1) depth cs = .ok (v, r)) : v.depth ≤ depth := by
  have word {x : Except Stop (List Char)} {w : Value} (hw : w.depth = 0)
      (h : x.map (w, ·) = .ok (v, r)) : v.depth ≤ depth := by
    obtain ⟨_, -, heq⟩ := Except.map_eq_ok.mp h
    cases heq
    omega
  have leaf {α : Type} {x : Reading α} {f : α → Value} (hf : ∀ a, (f a).depth = 0)
      (h : (x.map fun (a, r) => (f a, r)) = .ok (v, r)) : v.depth ≤ depth := by
    obtain ⟨⟨a, _⟩, -, heq⟩ := Except.map_eq_ok.mp h
    cases heq
    exact (hf a).trans_le (Nat.zero_le _)
  rw [readValue] at h
  split at h
  · cases h
  · exact word rfl h
  · exact word rfl h
  · exact word rfl h
  · exact leaf (fun _ => rfl) h
  · split at h
    · cases h
    · obtain ⟨⟨xs, r'⟩, hxs, heq⟩ := Except.map_eq_ok.mp h
      cases heq
      exact Nat.succ_le_succ (bounded.items hxs)
  · split at h
    · cases h
    · obtain ⟨⟨es, r'⟩, hes, heq⟩ := Except.map_eq_ok.mp h
      cases heq
      exact Nat.succ_le_succ (bounded.entries hes)
  · split at h
    · exact leaf (fun _ => rfl) h
    · cases h

end step

theorem bounded (fuel : Nat) : Bounded fuel := by
  induction fuel with
  | zero => constructor <;> (intros; contradiction)
  | succ fuel ih => exact ⟨ih.readValue_succ, ih.readItems_succ, ih.readEntries_succ⟩

/-- A value that is read is nested no deeper than the reader's limit. -/
theorem depth_of_readWritten {bytes : List UInt8} {v : Value} (h : readWritten bytes = .ok v) :
    v.depth ≤ maxDepth := by
  rw [readWritten, readWhole] at h
  split at h
  · cases h
  · rename_i a r hread
    split at h
    · cases h
      exact (bounded _).value hread
    · cases h

/-- Maps that are put in order are nested no deeper. -/
theorem depth_canonical_le (v : Value) : v.canonical.depth ≤ v.depth := by
  induction v with
  | null | bool | num | str => exact Nat.le_refl _
  | arr xs ih =>
    rw [canonical, depth, depth, Nat.succ_le_succ_iff, depthOfItems_le, canonicalItems_eq,
      List.forall_mem_map]
    exact fun x hx => (ih x hx).trans (depthOfItems_le.mp (Nat.le_refl _) x hx)
  | obj es ih =>
    rw [canonical, depth, depth, Nat.succ_le_succ_iff, depthOfEntries_le, canonicalEntries_eq]
    intro e he
    obtain ⟨f, hf, rfl⟩ := List.mem_map.mp (Entries.mem_of_mem_ofList he)
    exact (ih f hf).trans (depthOfEntries_le.mp (Nat.le_refl _) f hf)

end RecordGraph.Value
