import RecordGraph.Text.Blank

/-!
Texts without the characters to drop at their ends stay as they are.
-/
namespace RecordGraph.Text

theorem trimBoth_eq_self {p : Char → Bool} {cs : List Char}
    (first : ∀ c, cs.head? = some c → p c = false) (last : ∀ c, cs.getLast? = some c → p c = false) :
    trimBoth p cs = cs := by
  have hstay (ds : List Char) (h : ∀ c, ds.head? = some c → p c = false) : ds.dropWhile p = ds := by
    cases ds with
    | nil => rfl
    | cons d ds => exact List.dropWhile_cons_of_neg (by simp [h d rfl])
  have hlast : ∀ c, cs.reverse.head? = some c → p c = false := by
    intro c hc
    rw [List.head?_reverse] at hc
    exact last c hc
  rw [trimBoth, hstay cs first, hstay cs.reverse hlast, List.reverse_reverse]

theorem trimBoth_cons {p : Char → Bool} {c : Char} (h : p c) (cs : List Char) :
    trimBoth p (c :: cs) = trimBoth p cs := by
  rw [trimBoth, trimBoth, List.dropWhile_cons_of_pos h]

/-- What is not to be dropped stays. -/
theorem mem_trimBoth {p : Char → Bool} {c : Char} {cs : List Char} (hc : c ∈ cs) (h : p c = false) :
    c ∈ trimBoth p cs := by
  have hdrop {ds : List Char} (hd : c ∈ ds) : c ∈ ds.dropWhile p := by
    induction ds with
    | nil => cases hd
    | cons d ds ih =>
      by_cases hp : p d
      · rw [List.dropWhile_cons_of_pos hp]
        rcases List.mem_cons.mp hd with rfl | hd
        · exact absurd hp (by simp [h])
        · exact ih hd
      · rw [List.dropWhile_cons_of_neg hp]
        exact hd
  exact List.mem_reverse.mpr (hdrop (List.mem_reverse.mpr (hdrop hc)))

/-- What stands before a text without blanks is trimmed on its own. -/
theorem trimBoth_append {p : Char → Bool} {cs ds : List Char} (filled : ds ≠ [])
    (h : ∀ c ∈ ds, p c = false) : trimBoth p (cs ++ ds) = cs.dropWhile p ++ ds := by
  have hstay (es fs : List Char) (hes : es ≠ []) (h : ∀ c ∈ es, p c = false) :
      (es ++ fs).dropWhile p = es ++ fs := by
    obtain ⟨e, es, rfl⟩ := List.exists_cons_of_ne_nil hes
    exact List.dropWhile_cons_of_neg (by simp [h e List.mem_cons_self])
  have hfirst : (cs ++ ds).dropWhile p = cs.dropWhile p ++ ds := by
    rw [List.dropWhile_append]
    split
    · rename_i hnil
      rw [List.isEmpty_iff.mp hnil, List.nil_append]
      simpa using hstay ds [] filled h
    · rfl
  rw [trimBoth, hfirst, List.reverse_append, hstay, List.reverse_append, List.reverse_reverse,
    List.reverse_reverse]
  · simpa using filled
  · simpa using h

end RecordGraph.Text
