import RecordGraph.Proofs.Expr.Literal
import RecordGraph.Proofs.Value.Numbers
import RecordGraph.Proofs.Value.Strings
import RecordGraph.Value.Reader

/-!
The text of a value is read as the value, but for its numbers, each of which is read from its own text.
The depth of a value is what the reader's limit is on.
-/
namespace RecordGraph.Value

mutual
/-- The value with every number as its text is read, none where one cannot be read. -/
def reread : Value → Option Value
  | .num n => n.reread.map .num
  | .arr xs => (rereadItems xs).map .arr
  | .obj es => (rereadEntries es).map .obj
  | v => some v

def rereadItems : List Value → Option (List Value)
  | [] => some []
  | x :: xs => (reread x).bind fun y => (rereadItems xs).map (y :: ·)

def rereadEntries : List (String × Value) → Option (List (String × Value))
  | [] => some []
  | (k, x) :: es => (reread x).bind fun y => (rereadEntries es).map ((k, y) :: ·)
end

theorem uint?_uint (n : UInt64) : (uint n).uint? = some n := by
  simp [uint, uint?, Number.ofUInt64, Number.toUInt64?]

theorem reread_uint (n : UInt64) : (uint n).reread = some (uint n) := by
  simp [uint, reread, Number.ofUInt64, Number.reread_int]

mutual
/-- How deep lists and maps are nested. -/
def depth : Value → Nat
  | .arr xs => depthOfItems xs + 1
  | .obj es => depthOfEntries es + 1
  | _ => 0

def depthOfItems : List Value → Nat
  | [] => 0
  | x :: xs => max (depth x) (depthOfItems xs)

def depthOfEntries : List (String × Value) → Nat
  | [] => 0
  | (_, x) :: es => max (depth x) (depthOfEntries es)
end

mutual
/-- How many steps the reader takes at most. -/
def steps : Value → Nat
  | .arr xs => stepsOfItems xs + 1
  | .obj es => stepsOfEntries es + 1
  | _ => 1

def stepsOfItems : List Value → Nat
  | [] => 1
  | x :: xs => steps x + stepsOfItems xs + 1

def stepsOfEntries : List (String × Value) → Nat
  | [] => 1
  | (_, x) :: es => steps x + stepsOfEntries es + 1
end

/-! What the text of a value begins with, and what stands between values -/

theorem skipSpace_cons {c : Char} (h : isSpace c = false) (cs : List Char) :
    skipSpace (c :: cs) = c :: cs := by
  rw [skipSpace, List.dropWhile_cons_of_neg (by simp [h])]

theorem isSpace_of_number {c : Char} (h : c = '-' ∨ c.isDigit) : isSpace c = false := by
  rw [Bool.eq_false_iff]
  intro hspace
  simp only [isSpace, Bool.or_eq_true, beq_iff_eq] at hspace
  rcases hspace with ((rfl | rfl) | rfl) | rfl <;> rcases h with h | h <;> cases h

theorem chars_head (v : Value) :
    ∃ c cs, v.chars = c :: cs ∧ c.toNat < 0x80 ∧ isSpace c = false ∧ c ≠ ']' := by
  cases v with
  | null => exact ⟨'n', _, rfl, by decide⟩
  | bool b => cases b <;> exact ⟨_, _, rfl, by decide⟩
  | num n =>
    obtain ⟨⟨c, cs, hcs, hc⟩, hascii⟩ := n.chars_shape
    have hsmall : c.toNat < 0x80 := hascii c (by simp [hcs])
    refine ⟨c, cs, hcs, hsmall, ?_⟩
    refine ⟨isSpace_of_number hc, ?_⟩
    rintro rfl
    rcases hc with hc | hc <;> cases hc
  | str s => exact ⟨'"', _, rfl, by decide⟩
  | arr xs => exact ⟨'[', _, rfl, by decide⟩
  | obj es => exact ⟨'\x7b', _, rfl, by decide⟩

/-- What stands behind an item: the items left and the closing bracket. -/
def moreItems : List Value → List Char
  | [] => [']']
  | x :: xs => ',' :: itemsChars (x :: xs)

theorem itemsChars_cons (x : Value) (xs : List Value) :
    itemsChars (x :: xs) = chars x ++ moreItems xs := by
  cases xs <;> rfl

/-- What stands behind an entry: the entries left and the closing brace. -/
def moreEntries : List (String × Value) → List Char
  | [] => ['\x7d']
  | e :: es => ',' :: entriesChars (e :: es)

theorem entriesChars_cons (k : String) (v : Value) (es : List (String × Value)) :
    entriesChars ((k, v) :: es) = quotedChars k ++ ':' :: chars v ++ moreEntries es := by
  cases es <;> simp [entriesChars, moreEntries]

/-- The text of a value begins where the reader looks for a value. -/
theorem textOctets_chars (v : Value) : ∃ c cs, textOctets v.chars = c :: cs ∧
    isSpace c = false ∧ c ≠ ']' := by
  obtain ⟨c, cs, hcs, hascii, hspace, hclose⟩ := v.chars_head
  exact ⟨c, textOctets cs, by rw [hcs, textOctets_cons, charOctets_ascii hascii]; rfl, hspace, hclose⟩

theorem skipSpace_chars (v : Value) (r : List Char) :
    skipSpace (textOctets v.chars ++ r) = textOctets v.chars ++ r := by
  obtain ⟨c, cs, hcs, hspace, -⟩ := v.textOctets_chars
  rw [hcs, List.cons_append, skipSpace_cons hspace]

theorem nextItem_first (v : Value) (r : List Char) :
    nextItem true (textOctets v.chars ++ r) = .ok (true, textOctets v.chars ++ r) := by
  have hskip := v.skipSpace_chars r
  obtain ⟨c, cs, hcs, -, hclose⟩ := v.textOctets_chars
  rw [hcs, List.cons_append] at hskip ⊢
  simp [nextItem, hskip]

theorem nextItem_comma (v : Value) (r : List Char) :
    nextItem false (',' :: (textOctets v.chars ++ r)) = .ok (true, textOctets v.chars ++ r) := by
  have hskip := v.skipSpace_chars r
  have hcomma := skipSpace_cons (c := ',') (by decide) (textOctets v.chars ++ r)
  obtain ⟨c, cs, hcs, -, hclose⟩ := v.textOctets_chars
  rw [hcs, List.cons_append] at hskip hcomma ⊢
  simp [nextItem, hskip, hcomma, hclose]

theorem stops_moreItems (xs : List Value) (r : List Char) :
    Number.Stops (textOctets (moreItems xs) ++ r) := by
  cases xs with
  | nil => exact .cons (by decide) (by decide)
  | cons x xs => exact .cons (by decide) (by decide)

theorem stops_moreEntries (es : List (String × Value)) (r : List Char) :
    Number.Stops (textOctets (moreEntries es) ++ r) := by
  cases es with
  | nil => exact .cons (by decide) (by decide)
  | cons e es => exact .cons (by decide) (by decide)

/-- Reading the text of a value gives the value with its numbers reread, and stops behind it. -/
def ReadsBack (v : Value) : Prop :=
  ∀ fuel depth r, v.steps ≤ fuel → v.depth ≤ depth → Number.Stops r →
    (readValue fuel depth (textOctets v.chars ++ r)).toOption = v.reread.map (·, r)

section containers
variable {fuel depth : Nat}

/-- An item that the reader has come to, and the items behind it. -/
theorem readItems_step {x : Value} {xs : List Value} {first : Bool} {cs r : List Char}
    (hx : x.ReadsBack) (hfuel : x.steps ≤ fuel) (hdepth : x.depth ≤ depth)
    (hnext : nextItem first cs = .ok (true, textOctets x.chars ++ (textOctets (moreItems xs) ++ r)))
    (hxs : (readItems fuel depth false (textOctets (moreItems xs) ++ r)).toOption =
      (rereadItems xs).map (·, r)) :
    (readItems (fuel + 1) depth first cs).toOption = (rereadItems (x :: xs)).map (·, r) := by
  have hread := hx fuel depth _ hfuel hdepth (stops_moreItems xs r)
  rw [readItems, hnext, rereadItems]
  dsimp only
  cases hreread : x.reread with
  | none =>
    rw [hreread] at hread
    obtain ⟨e, he⟩ := Except.toOption_eq_none.mp hread
    rw [he]
    rfl
  | some y =>
    rw [hreread] at hread
    rw [Except.toOption_eq_some.mp hread]
    dsimp only
    rw [Except.toOption_map, hxs, Option.bind_some, Option.map_map, Option.map_map]
    rfl

theorem readItems_more {xs : List Value} (h : ∀ x ∈ xs, x.ReadsBack)
    (hfuel : stepsOfItems xs ≤ fuel) (hdepth : depthOfItems xs ≤ depth) (r : List Char) :
    (readItems fuel depth false (textOctets (moreItems xs) ++ r)).toOption =
      (rereadItems xs).map (·, r) := by
  induction xs generalizing fuel with
  | nil =>
    obtain ⟨fuel, rfl⟩ : ∃ n, fuel = n + 1 := ⟨fuel - 1, by simp [stepsOfItems] at hfuel; omega⟩
    rfl
  | cons x xs ih =>
    rw [List.forall_mem_cons] at h
    rw [stepsOfItems] at hfuel
    rw [depthOfItems, Nat.max_le] at hdepth
    obtain ⟨fuel, rfl⟩ : ∃ n, fuel = n + 1 := ⟨fuel - 1, by omega⟩
    have hcomma : textOctets (moreItems (x :: xs)) ++ r =
        ',' :: (textOctets x.chars ++ (textOctets (moreItems xs) ++ r)) := by
      rw [moreItems, itemsChars_cons, textOctets_cons, charOctets_ascii (by decide)]
      simp
    exact readItems_step h.1 (by omega) hdepth.1 (by rw [hcomma, nextItem_comma])
      (ih h.2 (by omega) hdepth.2)

theorem readItems_chars {xs : List Value} (h : ∀ x ∈ xs, x.ReadsBack)
    (hfuel : stepsOfItems xs ≤ fuel) (hdepth : depthOfItems xs ≤ depth) (r : List Char) :
    (readItems fuel depth true (textOctets (itemsChars xs) ++ r)).toOption =
      (rereadItems xs).map (·, r) := by
  cases xs with
  | nil =>
    obtain ⟨fuel, rfl⟩ : ∃ n, fuel = n + 1 := ⟨fuel - 1, by simp [stepsOfItems] at hfuel; omega⟩
    rfl
  | cons x xs =>
    rw [List.forall_mem_cons] at h
    rw [stepsOfItems] at hfuel
    rw [depthOfItems, Nat.max_le] at hdepth
    obtain ⟨fuel, rfl⟩ : ∃ n, fuel = n + 1 := ⟨fuel - 1, by omega⟩
    rw [itemsChars_cons, textOctets_append, List.append_assoc]
    exact readItems_step h.1 (by omega) hdepth.1 (nextItem_first x _)
      (readItems_more h.2 (by omega) hdepth.2 r)

/-- The octets of an entry behind the first quote of its key. -/
def entryRest (k : String) (v : Value) (rest : List Char) : List Char :=
  textOctets (k.toList.flatMap escaped ++ ['"']) ++ ':' :: (textOctets v.chars ++ rest)

theorem textOctets_entry (k : String) (v : Value) (es : List (String × Value)) (r : List Char) :
    textOctets (entriesChars ((k, v) :: es)) ++ r =
      '"' :: entryRest k v (textOctets (moreEntries es) ++ r) := by
  have hquote : charOctets '"' = ['"'] := charOctets_ascii (by decide)
  have hcolon : charOctets ':' = [':'] := charOctets_ascii (by decide)
  simp [entriesChars_cons, quotedChars, entryRest, hquote, hcolon]

theorem readColon_colon (r : List Char) : readColon (':' :: r) = .ok r := by
  simp [readColon, skipSpace_cons (c := ':') (by decide)]

/-- An entry behind whose first quote the reader is, and the entries behind it. -/
theorem readEntries_step {k : String} {x : Value} {es : List (String × Value)} {first : Bool}
    {cs r : List Char} (hx : x.ReadsBack) (hfuel : x.steps ≤ fuel) (hdepth : x.depth ≤ depth)
    (hnext : nextKey first cs = .ok (true, entryRest k x (textOctets (moreEntries es) ++ r)))
    (hes : (readEntries fuel depth false (textOctets (moreEntries es) ++ r)).toOption =
      (rereadEntries es).map (·, r)) :
    (readEntries (fuel + 1) depth first cs).toOption =
      (rereadEntries ((k, x) :: es)).map (·, r) := by
  have hread := hx fuel depth _ hfuel hdepth (stops_moreEntries es r)
  rw [readEntries, hnext, rereadEntries]
  dsimp only
  rw [entryRest, readText_quoted]
  dsimp only
  rw [readColon_colon]
  dsimp only
  cases hreread : x.reread with
  | none =>
    rw [hreread] at hread
    obtain ⟨e, he⟩ := Except.toOption_eq_none.mp hread
    rw [he]
    rfl
  | some y =>
    rw [hreread] at hread
    rw [Except.toOption_eq_some.mp hread]
    dsimp only
    rw [Except.toOption_map, hes, Option.bind_some, Option.map_map, Option.map_map]
    rfl

theorem readEntries_more {es : List (String × Value)} (h : ∀ e ∈ es, e.2.ReadsBack)
    (hfuel : stepsOfEntries es ≤ fuel) (hdepth : depthOfEntries es ≤ depth) (r : List Char) :
    (readEntries fuel depth false (textOctets (moreEntries es) ++ r)).toOption =
      (rereadEntries es).map (·, r) := by
  induction es generalizing fuel with
  | nil =>
    obtain ⟨fuel, rfl⟩ : ∃ n, fuel = n + 1 := ⟨fuel - 1, by simp [stepsOfEntries] at hfuel; omega⟩
    rfl
  | cons e es ih =>
    obtain ⟨k, x⟩ := e
    rw [List.forall_mem_cons] at h
    rw [stepsOfEntries] at hfuel
    rw [depthOfEntries, Nat.max_le] at hdepth
    obtain ⟨fuel, rfl⟩ : ∃ n, fuel = n + 1 := ⟨fuel - 1, by omega⟩
    have hcomma : textOctets (moreEntries ((k, x) :: es)) ++ r =
        ',' :: '"' :: entryRest k x (textOctets (moreEntries es) ++ r) := by
      rw [moreEntries, textOctets_cons, charOctets_ascii (by decide), List.singleton_append,
        List.cons_append, textOctets_entry]
    refine readEntries_step h.1 (by omega) hdepth.1 ?_ (ih h.2 (by omega) hdepth.2)
    rw [hcomma]
    simp [nextKey, skipSpace_cons (c := ',') (by decide), skipSpace_cons (c := '"') (by decide)]

theorem readEntries_chars {es : List (String × Value)} (h : ∀ e ∈ es, e.2.ReadsBack)
    (hfuel : stepsOfEntries es ≤ fuel) (hdepth : depthOfEntries es ≤ depth) (r : List Char) :
    (readEntries fuel depth true (textOctets (entriesChars es) ++ r)).toOption =
      (rereadEntries es).map (·, r) := by
  cases es with
  | nil =>
    obtain ⟨fuel, rfl⟩ : ∃ n, fuel = n + 1 := ⟨fuel - 1, by simp [stepsOfEntries] at hfuel; omega⟩
    rfl
  | cons e es =>
    obtain ⟨k, x⟩ := e
    rw [List.forall_mem_cons] at h
    rw [stepsOfEntries] at hfuel
    rw [depthOfEntries, Nat.max_le] at hdepth
    obtain ⟨fuel, rfl⟩ : ∃ n, fuel = n + 1 := ⟨fuel - 1, by omega⟩
    rw [textOctets_entry]
    refine readEntries_step h.1 (by omega) hdepth.1 ?_ (readEntries_more h.2 (by omega) hdepth.2 r)
    simp [nextKey, skipSpace_cons (c := '"') (by decide)]

end containers

theorem readValue_number {fuel depth : Nat} {c : Char} (cs : List Char) (h : c = '-' ∨ c.isDigit) :
    readValue (fuel + 1) depth (c :: cs) =
      (Number.read (c :: cs)).map fun (n, r) => (.num n, r) := by
  have hspace : isSpace c = false := isSpace_of_number h
  rw [readValue, skipSpace_cons hspace]
  split
  case h_8 heq =>
    obtain ⟨rfl, rfl⟩ := List.cons.inj heq
    rw [if_pos (by simpa using h)]
  all_goals
    rename_i heq
    cases heq <;> rcases h with h | h <;> cases h

theorem readValue_quote (fuel depth : Nat) (cs : List Char) :
    readValue (fuel + 1) depth ('"' :: cs) = (readText cs).map fun (s, r) => (.str s, r) := rfl

theorem readValue_bracket (fuel depth : Nat) (cs : List Char) :
    readValue (fuel + 1) (depth + 1) ('[' :: cs) =
      (readItems fuel depth true cs).map fun (xs, r) => (.arr xs, r) := rfl

theorem readValue_brace (fuel depth : Nat) (cs : List Char) :
    readValue (fuel + 1) (depth + 1) ('\x7b' :: cs) =
      (readEntries fuel depth true cs).map fun (es, r) => (.obj es, r) := rfl

/-- Every value is read from its text as itself, with its numbers reread. -/
theorem readsBack (v : Value) : v.ReadsBack := by
  induction v with
  | null =>
    intro fuel depth r hfuel _ _
    obtain ⟨fuel, rfl⟩ : ∃ n, fuel = n + 1 := ⟨fuel - 1, by simp [steps] at hfuel; omega⟩
    rfl
  | bool b =>
    intro fuel depth r hfuel _ _
    obtain ⟨fuel, rfl⟩ : ∃ n, fuel = n + 1 := ⟨fuel - 1, by simp [steps] at hfuel; omega⟩
    cases b <;> rfl
  | num n =>
    intro fuel depth r hfuel _ hr
    obtain ⟨fuel, rfl⟩ : ∃ n, fuel = n + 1 := ⟨fuel - 1, by simp [steps] at hfuel; omega⟩
    obtain ⟨⟨c, cs, hcs, hc⟩, hascii⟩ := n.chars_shape
    have hread := n.read_chars hr
    rw [chars, textOctets_ascii hascii]
    rw [hcs, List.cons_append] at hread ⊢
    rw [readValue_number _ hc, Except.toOption_map, hread, reread, Option.map_map, Option.map_map]
    rfl
  | str s =>
    intro fuel depth r hfuel _ _
    obtain ⟨fuel, rfl⟩ : ∃ n, fuel = n + 1 := ⟨fuel - 1, by simp [steps] at hfuel; omega⟩
    rw [chars, quotedChars, textOctets_cons, charOctets_ascii (by decide), List.singleton_append,
      List.cons_append, readValue_quote, readText_quoted]
    rfl
  | arr xs ih =>
    intro fuel depth r hfuel hdepth _
    rw [steps] at hfuel
    rw [Value.depth] at hdepth
    obtain ⟨fuel, rfl⟩ : ∃ n, fuel = n + 1 := ⟨fuel - 1, by omega⟩
    obtain ⟨depth, rfl⟩ : ∃ n, depth = n + 1 := ⟨depth - 1, by omega⟩
    have hitems : (readItems fuel depth true (textOctets (itemsChars xs) ++ r)).toOption =
        (rereadItems xs).map (·, r) := readItems_chars ih (by omega) (by omega) r
    rw [chars, textOctets_cons, charOctets_ascii (by decide), List.singleton_append,
      List.cons_append, readValue_bracket, Except.toOption_map, hitems, reread,
      Option.map_map, Option.map_map]
    rfl
  | obj es ih =>
    intro fuel depth r hfuel hdepth _
    rw [steps] at hfuel
    rw [Value.depth] at hdepth
    obtain ⟨fuel, rfl⟩ : ∃ n, fuel = n + 1 := ⟨fuel - 1, by omega⟩
    obtain ⟨depth, rfl⟩ : ∃ n, depth = n + 1 := ⟨depth - 1, by omega⟩
    have hentries : (readEntries fuel depth true (textOctets (entriesChars es) ++ r)).toOption =
        (rereadEntries es).map (·, r) := readEntries_chars ih (by omega) (by omega) r
    rw [chars, textOctets_cons, charOctets_ascii (by decide), List.singleton_append,
      List.cons_append, readValue_brace, Except.toOption_map, hentries, reread,
      Option.map_map, Option.map_map]
    rfl

/-! Whole texts -/

theorem steps_le (v : Value) : v.steps ≤ 2 * v.chars.length := by
  have hitems {xs : List Value} (h : ∀ x ∈ xs, x.steps ≤ 2 * x.chars.length) :
      stepsOfItems xs ≤ 2 * (itemsChars xs).length := by
    induction xs with
    | nil => decide
    | cons x xs ih =>
      rw [List.forall_mem_cons] at h
      have hxs := ih h.2
      rw [stepsOfItems, itemsChars_cons, List.length_append]
      cases xs with
      | nil =>
        simp only [moreItems, stepsOfItems, List.length_singleton]
        omega
      | cons y ys =>
        rw [moreItems, List.length_cons]
        omega
  have hentries {es : List (String × Value)} (h : ∀ e ∈ es, e.2.steps ≤ 2 * e.2.chars.length) :
      stepsOfEntries es ≤ 2 * (entriesChars es).length := by
    induction es with
    | nil => decide
    | cons e es ih =>
      obtain ⟨k, x⟩ := e
      rw [List.forall_mem_cons] at h
      have hes := ih h.2
      dsimp only at h
      simp only [stepsOfEntries, entriesChars_cons, List.length_append, List.length_cons]
      cases es with
      | nil =>
        simp only [moreEntries, stepsOfEntries, List.length_singleton]
        omega
      | cons f fs =>
        rw [moreEntries, List.length_cons]
        omega
  induction v with
  | null => decide
  | bool b => cases b <;> decide
  | num n =>
    obtain ⟨⟨c, cs, hcs, -⟩, -⟩ := n.chars_shape
    simp only [steps, chars, hcs, List.length_cons]
    omega
  | str s =>
    simp only [steps, chars, quotedChars, List.length_cons]
    omega
  | arr xs ih =>
    have h := hitems ih
    simp only [steps, chars, List.length_cons]
    omega
  | obj es ih =>
    have h := hentries ih
    simp only [steps, chars, List.length_cons]
    omega

theorem length_le_textOctets (cs : List Char) : cs.length ≤ (textOctets cs).length := by
  induction cs with
  | nil => exact Nat.le_refl 0
  | cons c cs ih =>
    have hc : 0 < (charOctets c).length := by
      rw [List.length_pos_iff]
      unfold charOctets Text.Utf8.octets Text.Utf8.encodeChar
      dsimp only
      split_ifs <;> simp
    rw [textOctets_cons, List.length_append, List.length_cons]
    omega

/-- A value is read from its text, with its numbers reread. -/
theorem readWritten_text {v : Value} (hdepth : v.depth ≤ maxDepth) :
    (readWritten (Text.Utf8.encode v.text)).toOption = v.reread := by
  have hsteps := v.steps_le
  have hlength := length_le_textOctets v.chars
  have hread := v.readsBack (2 * (textOctets v.chars).length + 1) maxDepth [] (by omega) hdepth .nil
  rw [List.append_nil] at hread
  rw [readWritten, readWhole, octets_encode, text, String.toList_ofList]
  cases hreread : v.reread with
  | none =>
    rw [hreread] at hread
    obtain ⟨e, he⟩ := Except.toOption_eq_none.mp hread
    rw [he]
    rfl
  | some w =>
    rw [hreread] at hread
    rw [Except.toOption_eq_some.mp hread]
    rfl

end RecordGraph.Value
