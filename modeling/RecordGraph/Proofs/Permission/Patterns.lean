import RecordGraph.Proofs.Permission.Access

/-!
Keys of permission tables as patterns. A key covers an action if one of its parts matches it component by
component, where a star stands for any name or endpoint. The part with two stars is the exception: it
covers an action only if a component of the action is a star itself.
-/
namespace RecordGraph

/-! Parts -/

/-- A part matches an action by its name alone, whatever the endpoint, or by both components. A star is
for any of them. -/
def PartMatches (name endpoint part : String) : Prop :=
  part = "*" ∨ part = name ∨
    ∃ a e, part = a ++ "." ++ e ∧ (a = "*" ∨ a = name) ∧ (e = "*" ∨ e = endpoint)

theorem toList_joined (a e : String) : (a ++ "." ++ e).toList = a.toList ++ '.' :: e.toList := by
  simp

/-- What is joined by a point can be told from the whole. -/
theorem joined_inj {a b : String} (e f : String) (ha : '.' ∉ a.toList) (hb : '.' ∉ b.toList) :
    a ++ "." ++ e = b ++ "." ++ f ↔ a = b ∧ e = f := by
  constructor
  · intro h
    have split := Text.splitFirst_joined e ha
    rw [h, Text.splitFirst_joined f hb] at split
    simpa [eq_comm] using split
  · rintro ⟨rfl, rfl⟩
    rfl

section part
variable {name : String} (undotted : '.' ∉ name.toList)
include undotted

theorem partMatches_dotted {a : String} (e endpoint : String) (ha : '.' ∉ a.toList) :
    PartMatches name endpoint (a ++ "." ++ e) ↔ (a = "*" ∨ a = name) ∧ (e = "*" ∨ e = endpoint) := by
  constructor
  · rintro (h | h | ⟨b, f, h, hb, hf⟩)
    · have dot : '.' ∈ "*".toList := by simp [← h]
      simp at dot
    · exact absurd (by simp [← h]) undotted
    · have hb' : '.' ∉ b.toList := by
        rcases hb with rfl | rfl
        · simp
        · exact undotted
      obtain ⟨rfl, rfl⟩ := (joined_inj e f ha hb').mp h
      exact ⟨hb, hf⟩
  · exact fun h => .inr (.inr ⟨a, e, rfl, h⟩)

omit undotted in
theorem partMatches_undotted {part : String} (endpoint : String) (hpart : '.' ∉ part.toList) :
    PartMatches name endpoint part ↔ part = "*" ∨ part = name := by
  constructor
  · rintro (h | h | ⟨a, e, rfl, -⟩)
    · exact .inl h
    · exact .inr h
    · simp at hpart
  · exact Or.imp_right .inl

/-- A part covers the actions it matches, but two stars only those with a star among their components. -/
theorem partCovers_iff (endpoint part : String) :
    partCovers name endpoint (name ++ "." ++ endpoint) part ↔
      PartMatches name endpoint part ∧ (part = "*.*" → name = "*" ∨ endpoint = "*") := by
  obtain ⟨hsplit, hpart⟩ | ⟨a, e, hsplit, hpart, ha⟩ := Text.splitFirst_cases '.' part
  · have stars : part ≠ "*.*" := by
      rintro rfl
      simp at hpart
    simp [partCovers, hsplit, partMatches_undotted endpoint hpart, stars]
  · obtain rfl : part = a ++ "." ++ e := by rw [← String.toList_inj, hpart, toList_joined]
    have stars : a ++ "." ++ e = "*.*" ↔ a = "*" ∧ e = "*" :=
      joined_inj (b := "*") e "*" ha (by decide)
    simp only [partCovers, hsplit, Bool.or_eq_true, Bool.and_eq_true, beq_iff_eq,
      joined_inj e endpoint ha undotted, partMatches_dotted undotted e endpoint ha, stars]
    constructor
    · rintro ((⟨rfl, rfl⟩ | ⟨rfl, rfl⟩) | ⟨rfl, rfl⟩)
      · exact ⟨⟨.inr rfl, .inr rfl⟩, fun h => .inl h.1⟩
      · exact ⟨⟨.inl rfl, .inr rfl⟩, fun h => .inr h.2⟩
      · exact ⟨⟨.inr rfl, .inl rfl⟩, fun h => .inl h.1⟩
    · rintro ⟨⟨rfl | rfl, rfl | rfl⟩, starred⟩
      · rcases starred ⟨rfl, rfl⟩ with rfl | rfl
        · exact .inr ⟨rfl, rfl⟩
        · exact .inl (.inr ⟨rfl, rfl⟩)
      · exact .inl (.inr ⟨rfl, rfl⟩)
      · exact .inr ⟨rfl, rfl⟩
      · exact .inl (.inl ⟨rfl, rfl⟩)

end part

/-! Keys -/

/-- The parts of a key in lower case, without blanks around them. -/
def keyParts (key : String) : List String :=
  (Text.pieces ',' key).map fun part => Text.lower (Text.trim part)

theorem covers_dotted {name : String} (undotted : '.' ∉ name.toList) (endpoint key : String) :
    covers key (name ++ "." ++ endpoint) ↔ ∃ part ∈ keyParts key, PartMatches name endpoint part ∧
      (part = "*.*" → name = "*" ∨ endpoint = "*") := by
  rw [covers, Text.splitFirst_joined endpoint undotted]
  simp only [Option.getD_some, List.any_eq_true, partCovers_iff undotted, keyParts, List.mem_map,
    exists_exists_and_eq_and]

section denied
variable {r : Resource} {ctx : Context} {field : Option Field}

/-- A field without a rule of its own leaves the access to the rules of the resource. -/
theorem can_of_no_prefetch (action : String)
    (h : ((field.bind Field.can).bind fun table => table.get? "prefetch") = none) :
    can r action ctx field = ruledAccess r (Text.lower action) ctx := by
  have hgranted : prefetchGranted r ctx field = .ok false := by rw [prefetchGranted, h]
  rw [can, hgranted]
  rfl

/-- A single rule that is false denies the actions that it covers. -/
theorem ruledAccess_false {key : String} (action : String) (h : r.can = some [(key, .bool false)]) :
    ruledAccess r action ctx = .ok (if covers key action then .denied else .all) := by
  have covering := Resource.covering_single h action
  cases hcovers : covers key action with
  | false =>
    rw [hcovers] at covering
    exact ruledAccess_uncovered ctx covering
  | true =>
    rw [hcovers, if_pos rfl] at covering
    rw [ruledAccess_covered ctx (by simp [covering]), covering, if_pos rfl]
    rfl

end denied

/-- A key covers an action exactly if one of its parts matches it component by component, the part with two
stars aside, which covers only an action with a star in it. A table with a false rule alone denies what its
key covers, and leaves the rest open. -/
theorem covers_iff_matches {action name endpoint : String}
    (h : Text.lower action = name ++ "." ++ endpoint) (undotted : '.' ∉ name.toList) (key : String) :
    let covered := ∃ part ∈ keyParts key, PartMatches name endpoint part ∧
      (part = "*.*" → name = "*" ∨ endpoint = "*")
    (covers key (Text.lower action) ↔ covered) ∧
      ∀ (r : Resource) (ctx : Context) (field : Option Field), r.can = some [(key, .bool false)] →
        ((field.bind Field.can).bind fun table => table.get? "prefetch") = none →
        (covered → can r action ctx field = .ok .denied) ∧
          (¬covered → can r action ctx field = .ok .all) := by
  intro covered
  have hcovers : covers key (Text.lower action) ↔ covered := by
    rw [h]
    exact covers_dotted undotted endpoint key
  refine ⟨hcovers, fun r ctx field hcan hfield => ?_⟩
  rw [can_of_no_prefetch action hfield, ruledAccess_false (Text.lower action) hcan, ← hcovers]
  exact ⟨fun hc => by rw [if_pos hc], fun hc => by rw [if_neg hc]⟩

/-- A list of a name and a starred endpoint, in any case, denies the endpoint of every name. -/
theorem covers_iff_matches_record :
    let key := " Set ,*.RECORD"
    let r : Resource := { Shelf.book with can := some [(key, .bool false)] }
    Text.lower "GET.Record" = "get" ++ "." ++ "record" ∧ '.' ∉ "get".toList ∧
      PartMatches "get" "record" "*.record" ∧ covers key (Text.lower "GET.Record") ∧
      can r "GET.Record" Shelf.asked none = .ok .denied := by
  intro key r
  have hlower : Text.lower "GET.Record" = "get" ++ "." ++ "record" := rfl
  have undotted : '.' ∉ "get".toList := by decide
  have parts : keyParts key = ["set", "*.record"] := by decide +kernel
  have matched : PartMatches "get" "record" "*.record" :=
    .inr (.inr ⟨"*", "record", rfl, .inl rfl, .inr rfl⟩)
  obtain ⟨hcovers, denies⟩ := covers_iff_matches hlower undotted key
  have covered : ∃ part ∈ keyParts key, PartMatches "get" "record" part ∧
      (part = "*.*" → "get" = "*" ∨ "record" = "*") :=
    ⟨"*.record", by simp [parts], matched, fun h => absurd h (by decide)⟩
  exact ⟨hlower, undotted, matched, hcovers.mpr covered, (denies r Shelf.asked none rfl rfl).1 covered⟩

/-- Two stars match an action and do not cover it: a table that denies them denies nothing. -/
theorem covers_not_stars :
    let r : Resource := { Shelf.book with can := some [("*.*", .bool false)] }
    "*.*" ∈ keyParts "*.*" ∧ PartMatches "get" "resource" "*.*" ∧
      covers "*.*" (Text.lower "get.resource") = false ∧
      can r "get.resource" Shelf.asked none = .ok .all := by
  intro r
  have uncovered : covers "*.*" (Text.lower "get.resource") = false := rfl
  have granted : can r "get.resource" Shelf.asked none = .ok .all := by
    have ruled : r.can = some [("*.*", .bool false)] := rfl
    rw [can_none, ruledAccess_false _ ruled, uncovered]
    rfl
  exact ⟨List.mem_singleton.mpr rfl, .inr (.inr ⟨"*", "*", rfl, .inl rfl, .inl rfl⟩), uncovered, granted⟩

end RecordGraph
