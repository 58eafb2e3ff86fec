import RecordGraph.Proofs.Run.Get
import RecordGraph.Proofs.Run.Listing

/-!
Following cursors. From the first page of a list, the cursor of each answer leads to the next page,
until all records have been seen: each once, and in the order of the list.
-/
namespace RecordGraph

namespace Query

/-- The query of the page behind a cursor. -/
def continued (q : Query) (token : String) : Query :=
  q.update { page := some { after := some token } } Level.root true

/-- The query with a page size. -/
def sized (q : Query) (size : UInt64) : Query :=
  q.update { page := some { size := some size } } Level.root true

theorem continued_eq (q : Query) (token : String) :
    q.continued token = { q with page := some ⟨q.page.bind Page.size, some token⟩ } := by
  obtain ⟨space, resource, record, field, action, inspect, take, filter, sort, page, group⟩ := q
  cases page <;> rfl

theorem sized_eq (q : Query) (size : UInt64) :
    q.sized size = { q with page := some ⟨some size, q.page.bind Page.after⟩ } := by
  obtain ⟨space, resource, record, field, action, inspect, take, filter, sort, page, group⟩ := q
  cases page <;> rfl

theorem continued_continued (q : Query) (token next : String) :
    (q.continued token).continued next = q.continued next := by
  simp only [continued_eq, Option.bind_some]

end Query

namespace Engine

/-- Requests that follow the cursors of their answers, up to an answer that gives none. -/
inductive Walk (e : Engine) (request : Value) : Query → List Response → Prop
  | last {q : Query} {response : Response} (answered : (e.execute q request).outcome = .ok response)
    (ends : response.page.get? "data" = none) : Walk e request q [response]
  | next {q : Query} {response : Response} {more : PageMeta} {pages : List Response}
    (answered : (e.execute q request).outcome = .ok response)
    (goesOn : response.page.get? "data" = some more)
    (behind : Walk e request (q.continued more.after) pages) : Walk e request q (response :: pages)

variable {e : Engine} {request : Value} {q : Query} {r : Resource}

theorem Walk.unique {pages others : List Response} (h : e.Walk request q pages)
    (h' : e.Walk request q others) : pages = others := by
  induction h generalizing others with
  | last answered ends =>
    cases h' with
    | last answered' =>
      cases answered.symm.trans answered'
      rfl
    | next answered' goesOn =>
      cases answered.symm.trans answered'
      cases ends.symm.trans goesOn
  | next answered goesOn _ ih =>
    cases h' with
    | last answered' ends =>
      cases answered.symm.trans answered'
      cases ends.symm.trans goesOn
    | next answered' goesOn' behind =>
      cases answered.symm.trans answered'
      cases goesOn.symm.trans goesOn'
      rw [ih behind]

/-! Rows in pages -/

/-- The page of a list of rows that begins at a position. -/
def pageAt (size : UInt64) (total : Option Nat) (rows : List Value) (position : UInt64) : Response :=
  ⟨.arr ((rows.drop position.toNat).take size.toNat),
    if position.toNat + size.toNat < rows.length then
      [("data", ⟨(Cursor.offset (position + size)).encode, total⟩)]
    else []⟩

/-- Pages that show a list of rows from a position on, each full but the last. -/
structure Shows (size : UInt64) (total : Option Nat) (rows : List Value) (position : Nat)
    (pages : List Response) : Prop where
  number : pages.length = max 1 ((rows.length - position + size.toNat - 1) / size.toNat)
  parts : ∃ parts : List (List Value), pages.map Response.data = parts.map .arr ∧
    parts.flatten = rows.drop position ∧ ∀ part ∈ parts.dropLast, part.length = size.toNat
  cursors : ∀ i response more, pages[i]? = some response → response.page.get? "data" = some more →
    ∃ next : UInt64, more = ⟨(Cursor.offset next).encode, total⟩ ∧
      next.toNat = position + (i + 1) * size.toNat ∧ next.toNat ≤ rows.length

variable {size : UInt64} {total : Option Nat} {rows : List Value}

theorem get?_pageAt (size : UInt64) (total : Option Nat) (rows : List Value) (position : UInt64) :
    (pageAt size total rows position).page.get? "data" =
      if position.toNat + size.toNat < rows.length then
        some ⟨(Cursor.offset (position + size)).encode, total⟩
      else none := by
  unfold pageAt
  split <;> rfl

theorem shows_last (holds : 0 < size.toNat) {position : UInt64}
    (ends : rows.length ≤ position.toNat + size.toNat) :
    Shows size total rows position.toNat [pageAt size total rows position] where
  number := by
    have hone : (rows.length - position.toNat + size.toNat - 1) / size.toNat < 2 := by
      rw [Nat.div_lt_iff_lt_mul holds]
      omega
    rw [List.length_singleton]
    omega
  parts := by
    have htake : (rows.drop position.toNat).take size.toNat = rows.drop position.toNat :=
      List.take_of_length_le (by rw [List.length_drop]; omega)
    exact ⟨[rows.drop position.toNat], by simp [pageAt, htake], by simp, by simp⟩
  cursors := by
    intro i response more hi hmore
    obtain ⟨rfl, rfl⟩ : i = 0 ∧ pageAt size total rows position = response := by
      simpa [List.getElem?_singleton] using hi
    rw [get?_pageAt, if_neg (by omega)] at hmore
    cases hmore

/-- A full page comes before the pages behind it. -/
theorem Shows.cons (holds : 0 < size.toNat) {position : UInt64} {pages : List Response}
    (counted : rows.length < UInt64.size) (goesOn : position.toNat + size.toNat < rows.length)
    (h : Shows size total rows (position + size).toNat pages) :
    Shows size total rows position.toNat (pageAt size total rows position :: pages) := by
  have hnext : (position + size).toNat = position.toNat + size.toNat := by
    rw [UInt64.toNat_add, Nat.mod_eq_of_lt]
    exact goesOn.trans (by simpa [UInt64.size] using counted)
  obtain ⟨number, ⟨parts, hdata, hflatten, hfull⟩, cursors⟩ := h
  rw [hnext] at number hflatten cursors
  refine ⟨?_, ⟨(rows.drop position.toNat).take size.toNat :: parts, ?_, ?_, ?_⟩, ?_⟩
  · have hleft : rows.length - position.toNat + size.toNat - 1 =
        rows.length - (position.toNat + size.toNat) + size.toNat - 1 + size.toNat := by omega
    have hsome : 1 ≤ (rows.length - (position.toNat + size.toNat) + size.toNat - 1) / size.toNat := by
      rw [Nat.one_le_div_iff holds]
      omega
    rw [List.length_cons, number, hleft, Nat.add_div_right _ holds]
    omega
  · rw [List.map_cons, List.map_cons, hdata]
    rfl
  · rw [List.flatten_cons, hflatten, ← List.drop_drop, List.take_append_drop]
  · have hparts : parts ≠ [] := by
      rintro rfl
      rw [List.map_nil, List.map_eq_nil_iff] at hdata
      rw [hdata, List.length_nil] at number
      omega
    rw [List.dropLast_cons_of_ne_nil hparts, List.forall_mem_cons]
    refine ⟨?_, hfull⟩
    rw [List.length_take, List.length_drop]
    omega
  · intro i response more hi hmore
    cases i with
    | zero =>
      cases hi
      rw [get?_pageAt, if_pos goesOn] at hmore
      exact ⟨position + size, (Option.some.inj hmore).symm, by omega, by omega⟩
    | succ i =>
      obtain ⟨next, hmore, hplace, hle⟩ := cursors i response more hi hmore
      refine ⟨next, hmore, ?_, hle⟩
      rw [hplace, Nat.add_mul (i + 1) 1, Nat.one_mul]
      omega

/-- From a page of the list on, the walk shows the rest of it. -/
theorem walk_from (holds : 0 < size.toNat) (counted : rows.length < UInt64.size)
    (answers : ∀ position : UInt64,
      (e.execute (q.continued (Cursor.offset position).encode) request).outcome =
        .ok (pageAt size total rows position))
    {p : Query} {position : UInt64} (again : ∀ token, p.continued token = q.continued token)
    (answered : (e.execute p request).outcome = .ok (pageAt size total rows position)) :
    ∃ pages, e.Walk request p pages ∧ Shows size total rows position.toNat pages := by
  -- what is left of the list shrinks with every page
  induction hleft : rows.length - position.toNat using Nat.strong_induction_on
    generalizing p position with
  | _ left ih =>
  by_cases goesOn : position.toNat + size.toNat < rows.length
  · have hnext : (position + size).toNat = position.toNat + size.toNat := by
      rw [UInt64.toNat_add, Nat.mod_eq_of_lt]
      exact goesOn.trans (by simpa [UInt64.size] using counted)
    have hmore : (pageAt size total rows position).page.get? "data" =
        some ⟨(Cursor.offset (position + size)).encode, total⟩ := by
      rw [get?_pageAt, if_pos goesOn]
    obtain ⟨pages, walk, shows'⟩ := ih _ (by omega) (fun token => q.continued_continued _ token)
      (answers (position + size)) rfl
    rw [← again] at walk
    exact ⟨_, .next answered hmore walk, shows'.cons holds counted goesOn⟩
  · have hends : (pageAt size total rows position).page.get? "data" = none := by
      rw [get?_pageAt, if_neg goesOn]
    exact ⟨_, .last answered hends, shows_last holds (by omega)⟩

/-! Lists in pages -/

theorem isPositional_start (size : UInt64) : (Window.mk size 0 none).IsPositional := by
  rintro _ ⟨⟩

theorem isPositional_offset (size position : UInt64) :
    (Window.mk size position (some (.offset position))).IsPositional := by
  rintro _ ⟨⟩

theorem pageAt_eq {w : Window} {matched : List Record} (shown : Record → Value) :
    (⟨.arr ((w.cut matched).map shown), w.rest total matched⟩ : Response) =
      pageAt w.size total (matched.map shown) w.offset := by
  rw [pageAt, Window.cut, Window.rest, List.map_take, List.map_drop, List.length_map]

/-- Following the cursors of a list query from its start ends. The pages show each record of the list
once, in the order in which one large page shows them; all pages but the last are full, and every cursor
stands behind the records seen so far. -/
theorem walk_pages (e : Engine) (q : Query) (request : Value) {r : Resource} {source : String}
    (list : e.IsList q r source) (start : q.page.bind Page.after = none) {size : UInt64}
    (hsize : (q.page.bind Page.size).getD e.settings.pageSize = size) (holds : size ≠ 0)
    (blind : e.Blind r q request) {large : UInt64}
    (enough : (e.matching r ⟨q, request⟩).length ≤ large.toNat) {whole : Response}
    (answered : (e.execute (q.sized large) request).outcome = .ok whole) :
    ∃ pages : List Response, (∀ others, e.Walk request q others ↔ others = pages) ∧
      pages.length = max 1 (((e.matching r ⟨q, request⟩).length + size.toNat - 1) / size.toNat) ∧
      (∃ parts : List (List Value), pages.map Response.data = parts.map .arr ∧
        whole.data = .arr parts.flatten ∧ ∀ part ∈ parts.dropLast, part.length = size.toNat) ∧
      ∀ i response more, pages[i]? = some response → response.page.get? "data" = some more →
        ∃ next : UInt64, more = ⟨(Cursor.offset next).encode,
            if e.settings.pageTotal then some (e.matching r ⟨q, request⟩).length else none⟩ ∧
          next.toNat = (i + 1) * size.toNat ∧ next.toNat ≤ (e.matching r ⟨q, request⟩).length := by
  have hpos : 0 < size.toNat := Nat.pos_of_ne_zero fun h => holds (UInt64.toNat_inj.mp h)
  have hgiven : (q.page.bind Page.size).getD e.settings.pageSize ≠ 0 := by
    rw [hsize]
    exact holds
  have counted : (e.matching r ⟨q, request⟩).length < UInt64.size := enough.trans_lt large.toNat_lt_size
  have hlarge : Window.ofPage (some ⟨some large, none⟩) e.settings.pageSize =
      .ok ⟨if large = 0 then 1 else large, 0, none⟩ := rfl
  rw [q.sized_eq, start, execute_page list blind counted hlarge (isPositional_start _)] at answered
  obtain ⟨fields, matched, lists, valued, rfl⟩ := answered
  have hlength := lists.length list
  -- the large page holds the whole list that all pages are cut from
  have hcut : (Window.mk (if large = 0 then 1 else large) 0 none).cut matched = matched := by
    have hfits : matched.length ≤ (if large = 0 then 1 else large).toNat := by
      rw [hlength]
      split
      · rename_i hzero
        rw [hzero] at enough
        exact enough.trans (Nat.zero_le _)
      · exact enough
    exact List.take_of_length_le hfits
  rw [hcut] at valued
  have answers {page : Option Page} {w : Window} (hw : Window.ofPage page e.settings.pageSize = .ok w)
      (positional : w.IsPositional) := (execute_page list blind counted hw positional).mpr
    ⟨fields, matched, lists, fun f hf record hmem =>
      valued f hf record (List.mem_of_mem_drop (List.mem_of_mem_take hmem)), rfl⟩
  simp only [pageAt_eq] at answers
  have hfirst : (e.execute q request).outcome = .ok (pageAt size
      (if e.settings.pageTotal then some matched.length else none)
      (matched.map fun record => e.row ⟨q, request⟩ r fields (some record)) 0) := by
    have hw := Window.ofPage_start start hgiven
    rw [hsize] at hw
    have hanswer := answers hw (isPositional_start size)
    cases q
    exact hanswer
  have hbehind (position : UInt64) :
      (e.execute (q.continued (Cursor.offset position).encode) request).outcome = .ok (pageAt size
        (if e.settings.pageTotal then some matched.length else none)
        (matched.map fun record => e.row ⟨q, request⟩ r fields (some record)) position) := by
    have hw := Window.ofPage_offset hgiven position
    rw [hsize] at hw
    rw [q.continued_eq]
    exact answers hw (isPositional_offset size position)
  obtain ⟨pages, walk, number, ⟨parts, hdata, hflatten, hfull⟩, cursors⟩ := walk_from hpos
    (by rw [List.length_map, hlength]; exact counted) hbehind (fun _ => rfl) hfirst
  rw [List.length_map, hlength] at number
  simp only [List.length_map, hlength] at cursors
  refine ⟨pages, fun others => ⟨fun h => h.unique walk, fun h => h ▸ walk⟩, number,
    ⟨parts, hdata, ?_, hfull⟩, ?_⟩
  · rw [hflatten, hcut]
    rfl
  · intro i response more hi hmore
    obtain ⟨next, hnext, hplace, hle⟩ := cursors i response more hi hmore
    exact ⟨next, hnext, by simpa using hplace, hle⟩

end Engine

/-! The books of a title, one a page -/

namespace Shelf

def paged : Query where
  space := some "library"
  resource := some "book"
  page := some { size := some 1 }

def books : Resource := { book with fields := [title, sequel] }

/-- The title that is asked for. -/
def wanted : Value := .node "=" (.arr [.str "title", .str "\"Emma\""])

theorem resolve_wanted (q : Query) :
    resolve (Context.scope ⟨q, asked.request⟩) asks = .ok wanted ∧
      resolve (Context.scope ⟨q, asked.request⟩) wanted = .ok wanted := by
  have target : (Context.scope ⟨q, asked.request⟩).lookup "request.title" = some (.str "Emma") := rfl
  have field : Text.afterChar? '.' "title" = none := by decide
  have quoted : Text.afterChar? '.' "\"Emma\"" = none := by decide
  have rooted : Text.afterChar? '.' ".request.title" = some "request.title" := by decide
  constructor <;>
    simp [wanted, resolve, asks, Value.node, resolveEntries, resolveItems, field, quoted, rooted,
      resolveReference, target, Expr.quote, fold, Expr.isLiteral, Expr.allLiteral, Expr.unquoted?]

theorem can_books (action : String) (q : Query) : can books action ⟨q, asked.request⟩ none =
    .ok (if covers "get" (Text.lower action) then .only wanted else .all) := by
  rw [can_none]
  cases hcovers : covers "get" (Text.lower action) with
  | false => rw [ruledAccess_uncovered _ (by simp [Resource.covering, books, book, hcovers])]; rfl
  | true =>
    have covered : books.covering (Text.lower action) = [("get", asks)] := by
      simp [Resource.covering, books, book, hcovers]
    have hmap : wanted.obj? ≠ none := by simp [wanted, Value.node, Value.obj?]
    rw [ruledAccess_covered _ (by simp [covered]), covered,
      collectRules_depends (resolve_wanted q).1 hmap]
    rfl

/-- Every predicate for books is the title that is asked for. -/
theorem eq_wanted {action : String} {q : Query} {access : Access}
    (h : can books action ⟨q, asked.request⟩ none = .ok access) {predicate : Value}
    (hp : access.predicate? = some predicate) : predicate = wanted := by
  cases (can_books action q).symm.trans h
  split at hp <;> cases hp
  rfl

theorem isList_paged : library.IsList paged books "books" where
  reads := rfl
  found := rfl
  record := rfl
  field := rfl
  stored := rfl
  many := rfl
  flat := by rintro ts ⟨⟩

theorem blind_paged : library.Blind books paged asked.request where
  rules := by
    intro rule hrule q q'
    obtain rfl : rule = ("get", asks) := by simpa [books, book] using hrule
    exact (resolve_wanted q).1.trans (resolve_wanted q').1.symm
  conditions := by
    intro f hf condition hcondition
    have hdepends : f.depends = none := by
      revert f
      simp [books, sequel, title]
    cases hdepends.symm.trans hcondition
  fieldRules := by
    intro f hf rule hrule
    have hnone : permissionTable f library.settings = [] := by
      revert f
      simp [books, sequel, title, permissionTable, library]
    rw [hnone] at hrule
    cases hrule
  sources := by
    simp [books, sequel, title, FieldSource.Blind]
  permission := by
    intro access haccess predicate hpredicate q q'
    cases eq_wanted haccess hpredicate
    exact (resolve_wanted q).2.trans (resolve_wanted q').2.symm
  filter := by rintro predicate ⟨⟩

end Shelf

/-- Two books match, so their list has two pages. -/
theorem Engine.walk_pages_pair :
    ∃ (whole first second : Response) (row : Value) (rows : List Value),
      (Shelf.library.execute (Shelf.paged.sized 2) Shelf.asked.request).outcome = .ok whole ∧
        Shelf.library.Walk Shelf.asked.request Shelf.paged [first, second] ∧
        first.data = .arr [row] ∧ second.data = .arr rows ∧ whole.data = .arr (row :: rows) := by
  have found : (Shelf.library.matching Shelf.books ⟨Shelf.paged, Shelf.asked.request⟩).length = 2 := by
    decide +kernel
  have ends : (Shelf.library.execute (Shelf.paged.sized 2)
      Shelf.asked.request).outcome.toOption.isSome := by decide +kernel
  cases h : (Shelf.library.execute (Shelf.paged.sized 2) Shelf.asked.request).outcome with
  | error e =>
    rw [h] at ends
    cases ends
  | ok whole =>
    have enough : (Shelf.library.matching Shelf.books ⟨Shelf.paged, Shelf.asked.request⟩).length ≤
        (2 : UInt64).toNat := found.le
    obtain ⟨pages, walk, number, ⟨parts, hdata, hwhole, hfull⟩, -⟩ := walk_pages Shelf.library
      Shelf.paged Shelf.asked.request Shelf.isList_paged rfl rfl (by decide) Shelf.blind_paged enough h
    rw [found] at number
    obtain ⟨first, second, rfl⟩ := List.length_eq_two.mp number
    obtain ⟨part, rows, rfl⟩ := List.length_eq_two.mp ((List.length_map _).symm.trans
      ((congrArg List.length hdata).symm.trans (List.length_map _)))
    obtain ⟨row, rfl⟩ := List.length_eq_one_iff.mp (hfull part (by simp))
    obtain ⟨hfirst, hsecond⟩ : first.data = .arr [row] ∧ second.data = .arr rows := by
      simpa using hdata
    exact ⟨whole, first, second, row, rows, rfl, (walk _).mpr rfl, hfirst, hsecond,
      by simpa using hwhole⟩

end RecordGraph
