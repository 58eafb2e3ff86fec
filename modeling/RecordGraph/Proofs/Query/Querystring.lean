import RecordGraph.Proofs.Query.Blob
import RecordGraph.Proofs.Text.Blank
import RecordGraph.Proofs.Text.Form
import RecordGraph.Proofs.Text.Pieces
import RecordGraph.Query.Querystring.Writer

/-!
States are read back from the texts they are written as: from their blobs, and from querystrings, in
which a blob stands where the textual form would not read back.
-/
namespace RecordGraph

namespace Text.Base64

/-- The characters of a blob: letters, digits and two marks. -/
theorem char_plain : ∀ n < 64, urlSafe.char n ∉ ['/', '?', '='] ∧ isBlank (urlSafe.char n) = false ∧
    (urlSafe.char n).toNat < 0x80 ∧ Form.isPlain (UInt8.ofNat (urlSafe.char n).toNat) := by decide

/-- A text with a character of neither alphabet, other than padding, holds no bytes. -/
theorem decode_eq_none {s : String} {c : Char} (hc : c ∈ s.toList) (hpad : c ≠ '=')
    (hsafe : urlSafe.value? c = none) (hstandard : standard.value? c = none) : decode s = none := by
  have hnone {a : Alphabet} {cs : List Char} (hc : c ∈ cs) (ha : a.value? c = none) :
      decodeChars a cs = none := by
    have hvalues : cs.mapM a.value? = none := by
      induction cs with
      | nil => cases hc
      | cons d cs ih =>
        rcases List.mem_cons.mp hc with rfl | hc
        · simp [ha]
        · simp [ih hc]
    rw [decodeChars, hvalues, Option.bind_none]
  rw [decode, hnone hc hsafe, Option.none_or, unpadded]
  split
  · -- only padding is taken off, so the character stays
    generalize s.toList = cs at hc
    have hsplit := List.takeWhile_append_dropWhile (p := (· == '=')) (l := cs.reverse)
    have hcs : cs = (cs.reverse.dropWhile (· == '=')).reverse ++
        (cs.reverse.takeWhile (· == '=')).reverse := by
      rw [← List.reverse_append, hsplit, List.reverse_reverse]
    obtain ⟨before, hbefore⟩ : ∃ before, (cs.reverse.dropWhile (· == '=')).reverse = before :=
      ⟨_, rfl⟩
    obtain ⟨padding, hpadding⟩ : ∃ padding, cs.reverse.takeWhile (· == '=') = padding := ⟨_, rfl⟩
    rw [hbefore, hpadding] at hcs
    have htake : cs.take (cs.length - padding.length) = before := by simp [hcs]
    rw [Option.bind_some, hpadding, htake]
    apply hnone _ hstandard
    rw [hcs, List.mem_append] at hc
    rcases hc with hc | hc
    · exact hc
    · rw [← hpadding] at hc
      have heq := List.mem_takeWhile_imp (List.mem_reverse.mp hc)
      exact absurd (by simpa using heq) hpad
  · rfl

end Text.Base64

namespace Query

section blob
variable {q : Query}

theorem mem_encodeState {c : Char} (h : c ∈ q.encodeState.toList) :
    c ∉ ['/', '?', '='] ∧ Text.isBlank c = false ∧ c.toNat < 0x80 ∧
      Text.Form.isPlain (UInt8.ofNat c.toNat) := by
  obtain ⟨n, hn, rfl⟩ := Text.Base64.mem_encode h
  exact Text.Base64.char_plain n hn

theorem trim_encodeState : Text.trim q.encodeState = q.encodeState := by
  rw [Text.trim, Text.trimBoth_eq_self, String.ofList_toList]
  · exact fun c hc => (mem_encodeState (List.mem_of_head? hc)).2.1
  · exact fun c hc => (mem_encodeState (List.mem_of_getLast? hc)).2.1

theorem trimChar_encodeState : Text.trimChar '/' q.encodeState = q.encodeState := by
  have hslash {c : Char} (hc : c ∈ q.encodeState.toList) : (c == '/') = false := by
    have hmem := (mem_encodeState hc).1
    simp only [List.mem_cons, not_or] at hmem
    simpa using hmem.1
  rw [Text.trimChar, Text.trimBoth_eq_self, String.ofList_toList]
  · exact fun c hc => hslash (List.mem_of_head? hc)
  · exact fun c hc => hslash (List.mem_of_getLast? hc)

/-- A blob in place of a querystring is read as the state it holds. -/
theorem parse_encodeState {r : Query} (h : decodeState q.encodeState = some r) :
    parse q.encodeState = .ok r := by
  rw [parse, decode, trim_encodeState, trimChar_encodeState, h]

/-- The parameter that holds a blob. -/
theorem encode_blob :
    Text.Form.encode [("query", q.encodeState)] = "query=".toList ++ q.encodeState.toList := by
  have hplain := Text.Form.encodeText_plain (s := q.encodeState) fun c hc => (mem_encodeState hc).2.2
  have hname : Text.Form.encodeText "query" = "query".toList := by decide
  rw [Text.Form.encode, Text.Form.encodePair, hplain, hname]
  simp

theorem mem_blobParam {c : Char} (h : c ∈ ("?query=" ++ q.encodeState).toList) :
    c ≠ '/' ∧ Text.isBlank c = false := by
  rw [String.toList_append, List.mem_append] at h
  rcases h with h | h
  · have hprefix : "?query=".toList.all (fun c => c != '/' && !Text.isBlank c) = true := by decide
    simpa using List.all_eq_true.mp hprefix c h
  · have hmem := mem_encodeState h
    simp only [List.mem_cons, not_or] at hmem
    exact ⟨hmem.1.1, hmem.2.1⟩

/-- A text with a character that no blob has is no blob. -/
theorem decodeState_eq_none {s : String} {c : Char} (hc : c ∈ s.toList) (hpad : c ≠ '=')
    (hsafe : Text.Base64.urlSafe.value? c = none) (hstandard : Text.Base64.standard.value? c = none) :
    decodeState s = none := by
  rw [decodeState, Text.Base64.decode_eq_none hc hpad hsafe hstandard]
  split <;> rfl

theorem parse_blobParam : parse ("?query=" ++ q.encodeState) =
    match decodeState q.encodeState with
    | some r => .ok r
    | none => .error (.query .encodedState) := by
  have htrim : Text.trim ("?query=" ++ q.encodeState) = "?query=" ++ q.encodeState := by
    rw [Text.trim, Text.trimBoth_eq_self, String.ofList_toList]
    · exact fun c hc => (mem_blobParam (List.mem_of_head? hc)).2
    · exact fun c hc => (mem_blobParam (List.mem_of_getLast? hc)).2
  have hslash : Text.trimChar '/' ("?query=" ++ q.encodeState) = "?query=" ++ q.encodeState := by
    rw [Text.trimChar, Text.trimBoth_eq_self, String.ofList_toList]
    · exact fun c hc => beq_false_of_ne (mem_blobParam (List.mem_of_head? hc)).1
    · exact fun c hc => beq_false_of_ne (mem_blobParam (List.mem_of_getLast? hc)).1
  have hnone : decodeState ("?query=" ++ q.encodeState) = none :=
    decodeState_eq_none (c := '?') (by simp) (by decide) (by decide) (by decide)
  have hpieces : Text.pieces '?' ("?query=" ++ q.encodeState) =
      ["", String.ofList (Text.Form.encode [("query", q.encodeState)])] := by
    rw [Text.pieces_of_append (s := "")
      (t := String.ofList (Text.Form.encode [("query", q.encodeState)])), Text.pieces_of_not_mem]
    · rw [encode_blob, String.toList_ofList, List.mem_append]
      rintro (h | h)
      · revert h
        decide
      · exact (mem_encodeState h).1 (by simp)
    · rw [encode_blob]
      simp
    · simp
  have hgroup : Param.group [("query", q.encodeState)] = [⟨"query", [q.encodeState]⟩] := by
    rw [Param.group, List.foldl_cons]
    dsimp only
    rw [q.encodeState_isEmpty]
    rfl
  have hfind : [Param.mk "query" [q.encodeState]].find? (fun p => p.key == Feature.query.name) =
      some ⟨"query", [q.encodeState]⟩ := rfl
  have haddress : Root.server.address Root.server.query
      ((Text.pieces '/' "").filter fun s => !s.isEmpty) = some {} := rfl
  rw [parse, decode, htrim, hslash, hnone, hpieces]
  dsimp only
  rw [ofPathAndParams, Text.Form.decode_encode, hgroup, haddress]
  dsimp only
  rw [hfind]
  dsimp only [List.head?_cons, Option.bind_some]
  generalize decodeState q.encodeState = state
  cases state <;> rfl

end blob

/-- The textual form of a state reads back as an equal state. -/
def TextReadsBack (q : Query) : Prop := ∃ text r, q.render = some text ∧ parse text = .ok r ∧ r.same q

/-- The textual form where it reads back, the blob where it does not. -/
theorem toQuerystring_cases (q : Query) :
    (∃ r, parse q.toQuerystring = .ok r ∧ r.same q) ∧ q.TextReadsBack ∨
      q.toQuerystring = "?query=" ++ q.encodeState ∧ ¬q.TextReadsBack := by
  rw [toQuerystring]
  cases hrender : q.render with
  | none =>
    refine .inr ⟨rfl, ?_⟩
    rintro ⟨text, r, h, -⟩
    cases hrender.symm.trans h
  | some text =>
    dsimp only
    cases hparse : parse text with
    | error e =>
      refine .inr ⟨rfl, ?_⟩
      rintro ⟨text', r, h, h', -⟩
      cases hrender.symm.trans h
      cases hparse.symm.trans h'
    | ok state =>
      dsimp only
      by_cases hsame : state.same q
      · rw [if_pos hsame]
        exact .inl ⟨⟨state, hparse, hsame⟩, text, state, hrender, hparse, hsame⟩
      · rw [if_neg hsame]
        refine .inr ⟨rfl, ?_⟩
        rintro ⟨text', r, h, h', h''⟩
        cases hrender.symm.trans h
        cases hparse.symm.trans h'
        exact hsame h''

/-- What becomes of a state that is written and read: the blob gives the state with each of its numbers
as read from its text. The querystring gives an equal state exactly if the textual form reads back, or
the numbers are read as equal ones. -/
theorem read_written (q : Query) (ordered : ∀ l, q.IsLevel l → l.Ordered)
    (given : ∀ l, q.IsLevel l → l.filter ≠ some .null) (hdepth : q.toValue.depth ≤ Value.maxDepth) :
    decodeState q.encodeState = q.reread ∧
      (∀ r, q.reread = some r → parse q.encodeState = .ok r) ∧
      ((∃ r, parse q.toQuerystring = .ok r ∧ r.same q) ↔
        q.TextReadsBack ∨ ∃ r, q.reread = some r ∧ r.same q) := by
  have hdecode := decodeState_encodeState q ordered given hdepth
  refine ⟨hdecode, fun r hr => parse_encodeState (hdecode.trans hr), ?_⟩
  rcases q.toQuerystring_cases with ⟨htext, hreads⟩ | ⟨hblob, hreads⟩
  · exact iff_of_true htext (.inl hreads)
  · rw [hblob, parse_blobParam, hdecode]
    cases q.reread with
    | none =>
      refine iff_of_false ?_ ?_
      · rintro ⟨r, h, -⟩
        cases h
      · rintro (h | ⟨r, h, -⟩)
        · exact hreads h
        · cases h
    | some r =>
      constructor
      · rintro ⟨_, ⟨⟩, hsame⟩
        exact .inr ⟨r, rfl, hsame⟩
      · rintro (h | ⟨_, ⟨⟩, hsame⟩)
        · exact absurd h hreads
        · exact ⟨r, rfl, hsame⟩

/-- Records heavier than `6e+30`: a state with a number whose text is not read as that number. -/
def heavier : Query :=
  { filter := some (.node ">" (.arr [.str "weight",
      .num (.double ⟨false, 5067375051682638255, by decide⟩)])) }

theorem level_heavier {l : Query} (h : heavier.IsLevel l) : l.Ordered ∧ l.filter ≠ some .null := by
  cases h with
  | nested take mem level => cases take
  | self =>
    refine ⟨⟨?_, ?_, ?_, ?_⟩, by simp [heavier, Value.node]⟩
    · rintro _ ⟨⟩
    · rintro _ ⟨⟩
    · rintro _ ⟨⟩
      simp [Value.node, Value.Canonical, Value.CanonicalEntries, Value.CanonicalItems, Entries.Sorted]
    · rintro _ ⟨⟩

theorem reread_heavier : heavier.reread = some
    { filter := some (.node ">" (.arr [.str "weight",
        .num (.double ⟨false, 5067375051682638256, by decide⟩)])) } := by
  rw [reread_eq]
  simp only [heavier, Value.node, ifGiven, Value.reread, Value.rereadEntries, Value.rereadItems,
    Number.reread_six_exp_thirty, Option.map_some, Option.bind_some]

theorem read_written_heavier : heavier.toValue.depth ≤ Value.maxDepth ∧
    (∀ l, heavier.IsLevel l → l.Ordered ∧ l.filter ≠ some .null) ∧
    decodeState heavier.encodeState = heavier.reread := by
  have hdepth : heavier.toValue.depth ≤ Value.maxDepth := by decide
  have hread := heavier.read_written (fun _ hl => (level_heavier hl).1)
    (fun _ hl => (level_heavier hl).2) hdepth
  exact ⟨hdepth, fun _ hl => level_heavier hl, hread.1⟩

/-- The blob does not hold the state it was made of. -/
theorem decodeState_heavier : heavier.toValue.depth ≤ Value.maxDepth ∧
    (∀ l, heavier.IsLevel l → l.filter ≠ some .null) ∧
    ¬∃ r, decodeState heavier.encodeState = some r ∧ r.same heavier := by
  have hdepth : heavier.toValue.depth ≤ Value.maxDepth := by decide
  have hblob := heavier.decodeState_encodeState (fun _ hl => (level_heavier hl).1)
    (fun _ hl => (level_heavier hl).2) hdepth
  refine ⟨hdepth, fun _ hl => (level_heavier hl).2, ?_⟩
  rintro ⟨r, hr, hsame⟩
  rw [hblob, reread_heavier] at hr
  cases hr
  simp [heavier, Query.same, sameMap, sameTake, sameFilter, Value.node, Value.same, Value.sameEntries,
    Value.sameItems, Number.same, Double.same, Double.key] at hsame

end Query
end RecordGraph
