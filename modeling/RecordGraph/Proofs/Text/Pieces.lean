import Mathlib.Data.List.TakeWhile
import RecordGraph.Text.Pieces

/-!
Pieces of a text, read from its characters: a text that begins with a separated part has this part as
its first piece, and the pieces of what follows as the others.
-/
namespace RecordGraph.Text
variable {p : Char → Bool} {sep : Char} {s t u : String}

theorem cut_of_none {cs : List Char} (h : ∀ c ∈ cs, p c = false) : cut p cs = [cs] := by
  induction cs with
  | nil => rfl
  | cons c cs ih =>
    rw [List.forall_mem_cons] at h
    simp [cut, h.1, ih h.2]

theorem cut_append {cs ds : List Char} {d : Char} (h : ∀ c ∈ cs, p c = false) (hd : p d) :
    cut p (cs ++ d :: ds) = cs :: cut p ds := by
  induction cs with
  | nil => simp [cut, hd]
  | cons c cs ih =>
    rw [List.forall_mem_cons] at h
    simp [cut, h.1, ih h.2]

theorem pieces_ne_nil (sep : Char) (s : String) : pieces sep s ≠ [] := by
  simpa [pieces, piecesBy] using cut_ne_nil _ _

theorem pieces_of_not_mem (h : sep ∉ s.toList) : pieces sep s = [s] := by
  have none : ∀ c ∈ s.toList, (c == sep) = false := by
    intro c hc
    simpa using ne_of_mem_of_not_mem hc h
  simp [pieces, piecesBy, cut_of_none none]

/-- The first piece ends at the first separator. -/
theorem pieces_of_append (hu : u.toList = s.toList ++ sep :: t.toList) (h : sep ∉ s.toList) :
    pieces sep u = s :: pieces sep t := by
  have none : ∀ c ∈ s.toList, (c == sep) = false := by
    intro c hc
    simpa using ne_of_mem_of_not_mem hc h
  simp [pieces, piecesBy, hu, cut_append none]

/-- A separator ends the pieces of what stands before it. -/
theorem cut_append_cut {cs ds : List Char} {d : Char} (hd : p d) :
    cut p (cs ++ d :: ds) = cut p cs ++ cut p ds := by
  induction cs with
  | nil => simp [cut, hd]
  | cons c cs ih =>
    obtain ⟨piece, rest, hcut⟩ := List.exists_cons_of_ne_nil (cut_ne_nil p cs)
    by_cases hc : p c
    · simp [cut, hc, ih]
    · simp [cut, hc, ih, hcut]

theorem pieces_append (hu : u.toList = s.toList ++ sep :: t.toList) :
    pieces sep u = pieces sep s ++ pieces sep t := by
  rw [pieces, piecesBy, hu, cut_append_cut (by simp), List.map_append]
  rfl

theorem mem_cut {cs piece : List Char} (h : piece ∈ cut p cs) : ∀ c ∈ piece, p c = false := by
  induction cs generalizing piece with
  | nil =>
    rw [List.mem_singleton.mp h]
    exact fun _ hc => absurd hc List.not_mem_nil
  | cons c cs ih =>
    obtain ⟨first, rest, hcut⟩ := List.exists_cons_of_ne_nil (cut_ne_nil p cs)
    rw [hcut] at ih
    rw [cut, hcut] at h
    split at h
    · rcases List.mem_cons.mp h with rfl | h
      · exact fun _ hc => absurd hc List.not_mem_nil
      · exact ih h
    · rename_i hc
      rcases List.mem_cons.mp h with rfl | h
      · exact List.forall_mem_cons.mpr ⟨by simpa using hc, ih List.mem_cons_self⟩
      · exact ih (List.mem_cons_of_mem _ h)

/-- No piece has a separator in it. -/
theorem not_mem_of_mem_pieces {piece : String} (h : piece ∈ pieces sep s) : sep ∉ piece.toList := by
  obtain ⟨cs, hcs, rfl⟩ := List.mem_map.mp h
  rw [String.toList_ofList]
  exact fun hmem => absurd (mem_cut hcs sep hmem) (by simp)

theorem join_cons_cons (glue s t : String) (parts : List String) :
    join glue (s :: t :: parts) = s ++ glue ++ join glue (t :: parts) :=
  String.intercalate_cons_cons

theorem join_concat {parts : List String} (h : parts ≠ []) (glue s : String) :
    join glue (parts ++ [s]) = join glue parts ++ glue ++ s := by
  rw [join, String.intercalate_append_of_ne_nil h (by simp), String.intercalate_singleton]
  rfl

theorem toList_join_cons (glue s : String) (parts : List String) :
    (join glue (s :: parts)).toList = s.toList ++ parts.flatMap fun t => glue.toList ++ t.toList := by
  induction parts generalizing s with
  | nil => simp [join]
  | cons t parts ih =>
    rw [join_cons_cons, String.toList_append, String.toList_append, ih, List.flatMap_cons,
      List.append_assoc, List.append_assoc]

theorem mem_join {glue : String} {parts : List String} {c : Char} (h : c ∈ (join glue parts).toList) :
    c ∈ glue.toList ∨ ∃ s ∈ parts, c ∈ s.toList := by
  cases parts with
  | nil => simp [join] at h
  | cons s parts =>
    rw [toList_join_cons, List.mem_append, List.mem_flatMap] at h
    rcases h with h | ⟨t, ht, h⟩
    · exact .inr ⟨s, List.mem_cons_self, h⟩
    · rcases List.mem_append.mp h with h | h
      · exact .inl h
      · exact .inr ⟨t, List.mem_cons_of_mem _ ht, h⟩

/-- The first piece ends where a separator follows it. -/
theorem head?_piecesBy {s u : String} {rest : List Char} (hu : u.toList = s.toList ++ rest)
    (h : ∀ c ∈ s.toList, p c = false) (ends : ∀ c, rest.head? = some c → p c) :
    (piecesBy p u).head? = some s := by
  cases rest with
  | nil =>
    rw [List.append_nil, String.toList_inj] at hu
    subst hu
    simp [piecesBy, cut_of_none h]
  | cons c rest => simp [piecesBy, hu, cut_append h (ends c rfl)]

/-- Joined parts are cut where they were joined. -/
theorem piecesBy_join {glue : String} {c : Char} (hglue : glue.toList = [c]) (hc : p c)
    {parts : List String} (hparts : parts ≠ []) (h : ∀ s ∈ parts, ∀ d ∈ s.toList, p d = false) :
    piecesBy p (join glue parts) = parts := by
  induction parts with
  | nil => exact absurd rfl hparts
  | cons s parts ih =>
    rw [List.forall_mem_cons] at h
    cases parts with
    | nil => rw [join, String.intercalate_singleton, piecesBy, cut_of_none h.1]; simp
    | cons t parts =>
      have htoList : (join glue (s :: t :: parts)).toList =
          s.toList ++ c :: (join glue (t :: parts)).toList := by
        rw [join_cons_cons, String.toList_append, String.toList_append, hglue, List.append_assoc]
        rfl
      have hrest := ih (by simp) h.2
      rw [piecesBy] at hrest ⊢
      rw [htoList, cut_append h.1 hc, List.map_cons, hrest, String.ofList_toList]

theorem pieces_join {glue : String} (hglue : glue.toList = [sep]) {parts : List String}
    (hparts : parts ≠ []) (h : ∀ s ∈ parts, sep ∉ s.toList) : pieces sep (join glue parts) = parts := by
  refine piecesBy_join (p := (· == sep)) hglue (beq_self_eq_true sep) hparts fun s hs c hc => ?_
  simpa using ne_of_mem_of_not_mem hc (h s hs)

theorem afterChar?_eq_some {c : Char} : afterChar? c s = some t ↔ s.toList = c :: t.toList := by
  unfold afterChar?
  cases hs : s.toList with
  | nil => simp
  | cons d rest =>
    by_cases hd : d = c
    · simp [hd, ← String.toList_inj]
    · simp [hd]

theorem afterChar?_eq_none {c : Char} : afterChar? c s = none ↔ s.toList.head? ≠ some c := by
  unfold afterChar?
  cases s.toList with
  | nil => simp
  | cons d rest => simp

theorem afterChar?_of_not_mem {c : Char} (h : c ∉ s.toList) : afterChar? c s = none :=
  afterChar?_eq_none.mpr fun hhead => h (List.mem_of_head? hhead)

theorem splitFirst_of_not_mem (h : sep ∉ s.toList) : splitFirst sep s = (s, none) := by
  have hdrop : s.toList.dropWhile (· != sep) = [] := by
    rw [List.dropWhile_eq_nil_iff]
    intro c hc
    simpa using ne_of_mem_of_not_mem hc h
  rw [splitFirst, hdrop]

theorem splitFirst_of_append (hu : u.toList = s.toList ++ sep :: t.toList) (h : sep ∉ s.toList) :
    splitFirst sep u = (s, some t) := by
  have hbefore : ∀ c ∈ s.toList, (c != sep) = true := by
    intro c hc
    simpa using ne_of_mem_of_not_mem hc h
  rw [splitFirst, hu, List.takeWhile_append_of_pos hbefore, List.dropWhile_append_of_pos hbefore]
  simp

theorem splitFirst_joined {a : String} (rest : String) (h : '.' ∉ a.toList) :
    splitFirst '.' (a ++ "." ++ rest) = (a, some rest) :=
  splitFirst_of_append (by simp) h

/-- A text without a separator is not split, any other at the first one. -/
theorem splitFirst_cases (sep : Char) (s : String) :
    (splitFirst sep s = (s, none) ∧ sep ∉ s.toList) ∨
      ∃ head rest, splitFirst sep s = (head, some rest) ∧
        s.toList = head.toList ++ sep :: rest.toList ∧ sep ∉ head.toList := by
  have split := List.takeWhile_append_dropWhile (p := (· != sep)) (l := s.toList)
  have before : sep ∉ s.toList.takeWhile (· != sep) := by
    intro h
    simpa using List.mem_takeWhile_imp h
  cases hd : s.toList.dropWhile (· != sep) with
  | nil =>
    rw [hd, List.append_nil] at split
    rw [split] at before
    exact .inl ⟨by simp [splitFirst, hd], before⟩
  | cons d rest =>
    have hsep : d = sep := by
      have := List.head_dropWhile_not (p := (· != sep)) (l := s.toList) (by simp [hd])
      simpa [hd] using this
    rw [hsep] at hd
    rw [hd] at split
    refine .inr ⟨String.ofList (s.toList.takeWhile (· != sep)), String.ofList rest, ?_, ?_, ?_⟩
    · simp [splitFirst, hd]
    · rw [String.toList_ofList, String.toList_ofList, split]
    · simpa using before

end RecordGraph.Text
