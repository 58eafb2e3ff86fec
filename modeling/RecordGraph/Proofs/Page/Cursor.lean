import RecordGraph.Page.Cursor
import RecordGraph.Proofs.Text.Base64
import RecordGraph.Proofs.Text.Utf8
import RecordGraph.Proofs.Value.Decimals
import RecordGraph.Proofs.Value.Depth

/-!
Cursors and their tokens. A token is read as the cursor it was made of, but for the doubles among its
sort values, each of which is read from its own text; doubles of few digits are read back. What a token
holds has a token of its own.
-/
namespace RecordGraph

theorem Value.mem_of_only? {es : List (String × Value)} {key : String} {v : Value}
    (h : only? es key = some v) : (key, v) ∈ es := by
  rw [only?] at h
  split at h
  · rename_i k w found
    cases h
    have hmem := List.mem_singleton_self (k, v)
    rw [← found] at hmem
    obtain ⟨mem, hkey⟩ := List.mem_filter.mp hmem
    exact beq_iff_eq.mp hkey ▸ mem
  · cases h

namespace Cursor

/-- The cursor with every number as its text is read, none where one cannot be read. -/
def reread : Cursor → Option Cursor
  | .offset n => some (.offset n)
  | .keyset after => (Value.rereadEntries after).map .keyset

/-- Each double of the cursor is read back from its text. -/
def Exact (c : Cursor) : Prop :=
  ∀ d, .double d ∈ c.toValue.numbers → (Number.double d).reread = some (.double d)

/-- Sort values are in the order of their keys, and nested no deeper than the reader goes. -/
structure Formed (c : Cursor) : Prop where
  canonical : c.toValue.Canonical
  shallow : c.toValue.depth ≤ Value.maxDepth

variable {c d : Cursor} {token : String}

theorem formed_offset (n : UInt64) : (offset n).Formed where
  canonical := Value.canonical_node_iff.mpr trivial
  shallow := by simp [toValue, Value.depth_node, Value.uint, Value.depth, Value.maxDepth]

/-! What is written -/

theorem reread_toValue (c : Cursor) : c.toValue.reread = c.reread.map toValue := by
  cases c with
  | offset n =>
    rw [toValue, Value.node, Value.reread, Value.rereadEntries, Value.reread_uint]
    rfl
  | keyset after =>
    rw [toValue, Value.node, Value.reread, Value.rereadEntries, Value.reread, reread]
    cases Value.rereadEntries after <;> rfl

/-- The value of a cursor holds the cursor. -/
theorem ofValue?_toValue (canonical : c.toValue.Canonical) : ofValue? c.toValue = some c := by
  cases c with
  | offset n =>
    have honly : Value.only? [("offset", Value.uint n)] "offset" = some (Value.uint n) := rfl
    rw [toValue, Value.node, ofValue?, honly, Option.bind_some, Value.uint?_uint]
  | keyset after =>
    have habsent : Value.only? [("after", Value.obj after)] "offset" = none := rfl
    have honly : Value.only? [("after", Value.obj after)] "after" = some (Value.obj after) := rfl
    have hafter : (Value.obj after).canonical = .obj after :=
      Value.canonical_eq_self (Value.canonical_node_iff.mp canonical)
    rw [toValue, Value.node, ofValue?, habsent, Option.bind_none, honly]
    exact congrArg (some ∘ keyset) (Value.obj.inj hafter)

/-- The token of a cursor is read as the cursor reread. -/
theorem decode_token (formed : c.Formed) :
    decode c.encode = c.reread.elim (.error (.query (.cursor c.encode))) .ok := by
  have hread := Value.readWritten_text formed.shallow
  rw [reread_toValue] at hread
  rw [decode, encode, Text.Base64.decode_encode, Option.bind_some, hread]
  cases h : c.reread with
  | none => rfl
  | some d =>
    have canonical : d.toValue.Canonical :=
      Value.canonical_of_reread formed.canonical (by rw [reread_toValue, h, Option.map_some])
    rw [Option.map_some, Option.bind_some, ofValue?_toValue canonical]
    rfl

theorem decode_token_eq_ok (formed : c.Formed) : decode c.encode = .ok d ↔ c.reread = some d := by
  rw [decode_token formed]
  cases c.reread <;> simp

/-- The token of a position holds the position. -/
theorem decode_encode (n : UInt64) : decode (offset n).encode = .ok (offset n) :=
  (decode_token_eq_ok (formed_offset n)).mpr rfl

/-- A cursor is reread as itself exactly if its doubles are, as integers always are. -/
theorem reread_eq_self : c.reread = some c ↔ c.Exact := by
  have hvalue : c.reread = some c ↔ c.toValue.reread = some c.toValue := by
    rw [reread_toValue]
    cases c with
    | offset n => simp [reread]
    | keyset after => simp [reread, toValue, Value.node]
  rw [hvalue, Value.reread_eq_self]
  refine ⟨fun h d hd => h _ hd, fun h n hn => ?_⟩
  cases n with
  | int i inRange => exact Number.reread_int inRange
  | double d => exact h d hn

/-! What is read -/

/-- A value is read as a position, or as the sort values that it has at `after`. -/
theorem ofValue?_cases {v : Value} (h : ofValue? v = some c) :
    (∃ n, c = .offset n) ∨ ∃ es after, v = .obj es ∧ ("after", .obj after) ∈ es ∧
      c.toValue = .node "after" (Value.obj after).canonical := by
  rw [ofValue?.eq_def] at h
  split at h
  · rename_i es
    split at h
    · exact .inl ⟨_, (Option.some.inj h).symm⟩
    · split at h
      · rename_i after honly
        cases h
        exact .inr ⟨es, after, rfl, Value.mem_of_only? honly, rfl⟩
      · cases h
  · cases h

theorem formed_of_ofValue? {v : Value} (h : ofValue? v = some c) (shallow : v.depth ≤ Value.maxDepth) :
    c.Formed := by
  obtain ⟨n, rfl⟩ | ⟨es, after, rfl, mem, hvalue⟩ := ofValue?_cases h
  · exact formed_offset n
  constructor <;> rw [hvalue]
  · exact Value.canonical_node_iff.mpr (Value.canonical_canonical _)
  · have hafter : (Value.obj after).depth ≤ Value.depthOfEntries es :=
      Value.depthOfEntries_le.mp (Nat.le_refl _) _ mem
    have hcanonical := Value.depth_canonical_le (.obj after)
    rw [Value.depth] at shallow
    rw [Value.depth_node]
    omega

/-- What a token holds is in order and within the reader's limit, whatever else stands in the token. -/
theorem formed_of_decode (h : decode token = .ok c) : c.Formed := by
  rw [decode] at h
  split at h
  · rename_i d hd
    cases h
    obtain ⟨v, hv, hof⟩ := Option.bind_eq_some_iff.mp hd
    obtain ⟨bytes, -, hbytes⟩ := Option.bind_eq_some_iff.mp hv
    exact formed_of_ofValue? hof (Value.depth_of_readWritten (Except.toOption_eq_some.mp hbytes))
  · cases h

theorem decode_token_eq_self (formed : c.Formed) : decode c.encode = .ok c ↔ c.Exact :=
  (decode_token_eq_ok formed).trans reread_eq_self

/-- A position is read back from its token. Sort values are read back reread, and as they are exactly if
each double among them is; so is a cursor that is itself what some token holds. Doubles are read back if
they have few digits. -/
theorem survives_token (c : Cursor) :
    (∀ n, c = offset n → decode c.encode = .ok c) ∧
    (c.Formed → decode c.encode = c.reread.elim (.error (.query (.cursor c.encode))) .ok ∧
      (decode c.encode = .ok c ↔ c.Exact)) ∧
    (∀ token, decode token = .ok c → c.Formed ∧ (decode c.encode = .ok c ↔ c.Exact)) ∧
    ((∀ d, .double d ∈ c.toValue.numbers → d.isZero ∨ d.shortest.Short) → c.Exact) := by
  refine ⟨?_, fun formed => ⟨decode_token formed, decode_token_eq_self formed⟩, ?_, ?_⟩
  · rintro n rfl
    exact decode_encode n
  · intro token h
    exact ⟨formed_of_decode h, decode_token_eq_self (formed_of_decode h)⟩
  · intro short d hd
    exact Number.reread_short (short d hd)

/-- The position that a cursor holds. -/
def position? : Cursor → Option UInt64
  | .offset n => some n
  | .keyset _ => none

theorem position?_eq_some {n : UInt64} : c.position? = some n ↔ c = .offset n := by
  cases c <;> simp [position?]

/-- Sort values at the key of positions, and a position beside another key in the padded alphabet. -/
theorem survives_token_marks :
    let half : Number := .double ⟨false, 0x3FE0000000000000, by decide⟩
    let ranks := keyset [("marks", .arr [.str "ö", .num half]), ("offset", .uint 18446744073709551615)]
    let padded := "eyJ4Ijoifn4+Iiwib2Zmc2V0Ijo3fQ=="
    decode ranks.encode = .ok ranks ∧ ∃ c, decode padded = .ok c ∧ decode c.encode = .ok c := by
  intro half ranks padded
  have formed : ranks.Formed := by
    have sorted : "marks" < "offset" := by decide
    constructor
    · refine Value.canonical_node_iff.mpr (Value.canonical_obj_iff.mpr ⟨?_, ?_⟩)
      · exact List.pairwise_pair.mpr sorted
      · simp [Value.uint, Value.Canonical, Value.CanonicalItems]
    · decide
  have short : ∀ d, .double d ∈ ranks.toValue.numbers → d.isZero ∨ d.shortest.Short := by
    intro d hd
    have hhalf : d = ⟨false, 0x3FE0000000000000, by decide⟩ := by
      simpa [ranks, half, toValue, Value.node, Value.uint, Number.ofUInt64, Value.numbers,
        Value.numbersOfEntries, Value.numbersOfItems] using hd
    subst hhalf
    exact .inr ⟨by decide +kernel, by decide +kernel⟩
  have hposition : (decode padded).toOption.bind position? = some 7 := by decide +kernel
  obtain ⟨c, hc, hseven⟩ := Option.bind_eq_some_iff.mp hposition
  have exactly : c.Exact := position?_eq_some.mp hseven ▸ reread_eq_self.mp rfl
  have hpadded := Except.toOption_eq_some.mp hc
  obtain ⟨-, written, -, exact⟩ := survives_token ranks
  exact ⟨(written formed).2.mpr (exact short), c, hpadded,
    ((survives_token c).2.2.1 padded hpadded).2.mpr exactly⟩

/-- A mass of `6e30` is read back from its token as its neighbour, also where a token holds it. -/
theorem decode_token_rounded :
    let heavy := keyset [("mass", .num (.double ⟨false, 5067375051682638255, by decide⟩))]
    let token := "eyJhZnRlciI6eyJtYXNzIjo2MDAwMDAwMDAwMDAwMDAwZTE1fX0"
    heavy.Formed ∧ decode heavy.encode ≠ .ok heavy ∧
      ∃ c, decode token = .ok c ∧ decode c.encode ≠ .ok c := by
  intro heavy token
  have formed : heavy.Formed := by
    constructor
    · exact Value.canonical_node_iff.mpr (Value.canonical_node_iff.mpr trivial)
    · decide
  refine ⟨formed, ?_, ?_⟩
  · rw [ne_eq, decode_token_eq_self formed]
    intro exact
    have hreread := exact _ (List.mem_singleton_self _)
    rw [Number.reread_six_exp_thirty] at hreread
    simp at hreread
  · have hread : (decode token).toOption.map encode = some "eyJhZnRlciI6eyJtYXNzIjo2ZSszMH19" := by
      decide +kernel
    have hagain : (decode "eyJhZnRlciI6eyJtYXNzIjo2ZSszMH19").toOption.map encode =
        some "eyJhZnRlciI6eyJtYXNzIjo2LjAwMDAwMDAwMDAwMDAwMWUrMzB9fQ" := by decide +kernel
    obtain ⟨c, hc, hencode⟩ := Option.map_eq_some_iff.mp hread
    refine ⟨c, Except.toOption_eq_some.mp hc, fun hsame => ?_⟩
    rw [← hencode, hsame, Except.toOption, Option.map_some, hencode] at hagain
    simp at hagain

end Cursor
end RecordGraph
