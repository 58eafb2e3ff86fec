import RecordGraph.Proofs.Outcome
import RecordGraph.Proofs.Text.Pieces
import RecordGraph.Query.Querystring.Writer

/-!
Parameters by what they set. A feature, a level and subkeys make a key, which is taken apart into them
again.
-/
namespace RecordGraph

/-- What a parameter sets at a level. -/
structure Setting where
  feature : Feature
  subkeys : List String
  values : List String

namespace Setting

def key (level : Level) (s : Setting) : String :=
  Text.join s.feature.separator.toString (Text.join "." (s.feature.name :: level) :: s.subkeys)

def param (level : Level) (s : Setting) : Param := ⟨s.key level, s.values⟩

/-- A setting that is read back from its key at a level. -/
structure Fits (level : Level) (s : Setting) : Prop where
  names : ∀ name ∈ level, name ≠ "" ∧ '.' ∉ name.toList ∧ ':' ∉ name.toList
  root : s.feature.isLeveled = false → level = []
  subkeys : ∀ k ∈ s.subkeys, s.feature.separator ∉ k.toList
  values : s.values ≠ []
  texts : ∀ v ∈ s.values, v ≠ ""

theorem name_plain (feature : Feature) : '.' ∉ feature.name.toList ∧ ':' ∉ feature.name.toList := by
  cases feature <;> decide

theorem ofKey?_name (feature : Feature) {rest : List Char} {key : String}
    (hkey : key.toList = feature.name.toList ++ rest)
    (ends : ∀ c, rest.head? = some c → c = '.' ∨ c = ':') : Feature.ofKey? key = some feature := by
  have hplain : ∀ c ∈ feature.name.toList, (c == '.' || c == ':') = false := by
    intro c hc
    rw [Bool.or_eq_false_iff, beq_eq_false_iff_ne, beq_eq_false_iff_ne]
    exact ⟨ne_of_mem_of_not_mem hc (name_plain feature).1, ne_of_mem_of_not_mem hc (name_plain feature).2⟩
  have hhead := Text.head?_piecesBy (p := fun c => c == '.' || c == ':') hkey hplain
    fun c hc => by simpa using ends c hc
  rw [Feature.ofKey?, hhead, Option.getD_some]
  cases feature <;> decide

theorem head_flatMap {glue : String} {c : Char} (hglue : glue.toList = [c]) (parts : List String)
    (rest : List Char) (ends : ∀ d, rest.head? = some d → d = '.' ∨ d = ':') (hc : c = '.' ∨ c = ':') :
    ∀ d, ((parts.flatMap fun t => glue.toList ++ t.toList) ++ rest).head? = some d →
      d = '.' ∨ d = ':' := by
  cases parts with
  | nil => exact ends
  | cons t parts =>
    rw [List.flatMap_cons, hglue]
    rintro d ⟨⟩
    exact hc

theorem toList_separator (feature : Feature) :
    feature.separator.toString.toList = [feature.separator] := by
  cases feature <;> rfl

theorem separator_cases (feature : Feature) : feature.separator = '.' ∨ feature.separator = ':' := by
  cases feature <;> decide

/-- A level is read from what stands before the subkeys. -/
theorem level_of_stem (feature : Feature) {level : Level}
    (h : ∀ name ∈ level, name ≠ "" ∧ '.' ∉ name.toList ∧ ':' ∉ name.toList) :
    Level.ofText? (Text.splitFirst '.' (Text.join "." (feature.name :: level))).2 = level := by
  cases level with
  | nil =>
    have hjoin : Text.join "." [feature.name] = feature.name := by simp [Text.join]
    rw [hjoin, Text.splitFirst_of_not_mem (name_plain feature).1]
    rfl
  | cons name level =>
    have hsplit : (Text.join "." (feature.name :: name :: level)).toList =
        feature.name.toList ++ '.' :: (Text.join "." (name :: level)).toList := by
      rw [Text.join_cons_cons, String.toList_append, String.toList_append, List.append_assoc]
      rfl
    have hfilled : (Text.join "." (name :: level)).isEmpty = false := by
      have hname := (h name List.mem_cons_self).1
      rw [← Bool.not_eq_true, String.isEmpty_iff, ← String.toList_inj, Text.toList_join_cons]
      simp [hname]
    rw [Text.splitFirst_of_append hsplit (name_plain feature).1, Level.ofText?, hfilled, if_neg (by decide),
      Level.ofText, Text.pieces_join rfl (by simp) fun name hname => (h name hname).2.1]

theorem separator_not_mem_stem {feature : Feature} {level : Level}
    (root : feature.isLeveled = false → level = [])
    (h : ∀ name ∈ level, name ≠ "" ∧ '.' ∉ name.toList ∧ ':' ∉ name.toList) :
    feature.separator ∉ (Text.join "." (feature.name :: level)).toList := by
  cases hleveled : feature.isLeveled with
  | false =>
    have hjoin : Text.join "." [feature.name] = feature.name := by simp [Text.join]
    rw [root hleveled, hjoin, Feature.separator, hleveled]
    exact (name_plain feature).1
  | true =>
    rw [Feature.separator, if_pos hleveled]
    intro hmem
    rcases Text.mem_join hmem with hmem | ⟨part, hpart, hmem⟩
    · revert hmem
      decide
    · rcases List.mem_cons.mp hpart with rfl | hpart
      · exact (name_plain feature).2 hmem
      · exact (h part hpart).2.2 hmem

variable {s : Setting} {level : Level}

/-- The key is taken apart into what it was made of. -/
theorem Fits.parts (h : s.Fits level) : (s.param level).parts = .ok ⟨s.feature, level, s.subkeys⟩ := by
  obtain ⟨feature, subkeys, values⟩ := s
  have hkey : (key level ⟨feature, subkeys, values⟩).toList = feature.name.toList ++
      ((level.flatMap fun t => ".".toList ++ t.toList) ++
        subkeys.flatMap fun t => feature.separator.toString.toList ++ t.toList) := by
    rw [key, Text.toList_join_cons, Text.toList_join_cons, List.append_assoc]
  have hfeature : Feature.ofKey? (key level ⟨feature, subkeys, values⟩) = some feature := by
    refine ofKey?_name feature hkey (head_flatMap rfl level _ ?_ (.inl rfl))
    have := head_flatMap (toList_separator feature) subkeys [] (by simp) (separator_cases feature)
    rwa [List.append_nil] at this
  have hpieces : Text.pieces feature.separator (key level ⟨feature, subkeys, values⟩) =
      Text.join "." (feature.name :: level) :: subkeys := by
    refine Text.pieces_join (toList_separator feature) (by simp) (List.forall_mem_cons.mpr ⟨?_, h.subkeys⟩)
    exact separator_not_mem_stem h.root h.names
  rw [param, Param.parts, hfeature]
  dsimp only
  rw [hpieces, List.headD_cons, List.drop_one, List.tail_cons, level_of_stem feature h.names]

/-- The pairs of a setting, one for each value. -/
def pairs (level : Level) (s : Setting) : List (String × String) := s.values.map (s.key level, ·)

theorem key_ne_empty (level : Level) (s : Setting) : s.key level ≠ "" := by
  have hname : s.feature.name ≠ "" := by cases s.feature <;> decide
  rw [key, ne_eq, ← String.toList_inj, Text.toList_join_cons, Text.toList_join_cons]
  simp [hname]

end Setting

/-- The pairs of a parameter. -/
def Param.pairs (p : Param) : List (String × String) := p.values.map (p.key, ·)

end RecordGraph
