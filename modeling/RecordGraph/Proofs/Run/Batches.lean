import RecordGraph.Proofs.Run.Loading
import RecordGraph.Proofs.Run.Rows

/-!
Rendering many records at once. A batch becomes, row by row, what its records become alone, at every
depth of nested relations.
-/
namespace RecordGraph

namespace Pointwise
variable {α β γ : Type} {domain : List α} {run : List α → Run (List β)} {value : α → β}

theorem pure (value : α → β) : Pointwise domain (fun xs => Pure.pure (xs.map value)) value :=
  ⟨True, fun _ => True, fun xs _ ys => by
    simp only [true_and, implies_true]
    exact ⟨fun h => (Except.ok.inj h).symm, congrArg Except.ok ∘ Eq.symm⟩⟩

/-- Nothing is given to items where the run always fails. -/
theorem of_error (value : α → β) (h : ∀ xs ys, (run xs).outcome ≠ .ok ys) :
    Pointwise domain run value :=
  ⟨False, fun _ => True, fun xs _ ys => iff_of_false (h xs ys) fun hys => hys.1⟩

/-- A run may begin with a value for each item. -/
theorem mapM_bind {f : α → Except QueryError γ} (default : γ) {next : List α → List γ → Run (List β)}
    (h : Pointwise domain (fun xs => next xs (xs.map fun x => (f x).toOption.getD default)) value) :
    Pointwise domain (fun xs => Run.ofExcept (xs.mapM f) >>= next xs) value := by
  obtain ⟨settled, defined, h⟩ := h
  refine ⟨settled, fun x => (∃ y, f x = .ok y) ∧ defined x, fun xs sub ys => ?_⟩
  rw [Run.outcome_bind]
  constructor
  · rintro ⟨values, hvalues, hys⟩
    obtain ⟨hall, rfl⟩ := (Except.mapM_eq_ok_map default).mp hvalues
    obtain ⟨hsettled, hdefined, rfl⟩ := (h xs sub ys).mp hys
    exact ⟨hsettled, fun x hx => ⟨hall x hx, hdefined x hx⟩, rfl⟩
  · rintro ⟨hsettled, hdefined, rfl⟩
    exact ⟨_, (Except.mapM_eq_ok_map default).mpr ⟨fun x hx => (hdefined x hx).1, rfl⟩,
      (h xs sub _).mpr ⟨hsettled, fun x hx => (hdefined x hx).2, rfl⟩⟩

/-- Several runs over the same items, one for each field. -/
theorem each [Inhabited β] {fields : List γ} {run : γ → List α → Run (List β)}
    (h : ∀ f ∈ fields, ∃ value, Pointwise domain (run f) value) :
    ∃ (value : γ → α → β) (settled : Prop) (defined : α → Prop), ∀ xs ⊆ domain, ∀ columns,
      (Run.each (fun f => run f xs) fields).outcome = .ok columns ↔
        settled ∧ (∀ x ∈ xs, defined x) ∧ columns = fields.map fun f => xs.map (value f) := by
  choose! value settled defined h using h
  refine ⟨value, ∀ f ∈ fields, settled f, fun x => ∀ f ∈ fields, defined f x, fun xs sub columns => ?_⟩
  have column : ∀ f ∈ fields, ∀ column, (run f xs).outcome = .ok column ↔
      (settled f ∧ ∀ x ∈ xs, defined f x) ∧ column = xs.map (value f) := fun f hf column => by
    rw [h f hf xs sub column, and_assoc]
  rw [Run.outcome_each_eq_ok, List.forall₂_iff_map column, ← and_assoc]
  refine and_congr_left fun _ => ⟨fun hall => ?_, fun hall f hf => ?_⟩
  · exact ⟨fun f hf => (hall f hf).1, fun x hx f hf => (hall f hf).2 x hx⟩
  · exact ⟨hall.1 f hf, fun x hx => hall.2 x hx f hf⟩

/-- Each item gets what it gets alone. -/
theorem alone (h : Pointwise domain run value) (some : domain ≠ []) :
    ((∃ ys, (run domain).outcome = .ok ys) ↔ ∀ x ∈ domain, ∃ part, (run [x]).outcome = .ok part) ∧
      ∀ ys, (run domain).outcome = .ok ys →
        List.Forall₂ (fun x y => (run [x]).outcome = .ok [y]) domain ys := by
  obtain ⟨settled, defined, h⟩ := h
  have one {x : α} (hx : x ∈ domain) (ys : List β) :
      (run [x]).outcome = .ok ys ↔ settled ∧ defined x ∧ ys = [value x] := by
    simpa using h [x] (by simpa using hx) ys
  have whole := h domain (List.Subset.refl _)
  refine ⟨⟨?_, fun hall => ?_⟩, fun ys hys => ?_⟩
  · rintro ⟨ys, hys⟩ x hx
    obtain ⟨hsettled, hdefined, -⟩ := (whole ys).mp hys
    exact ⟨_, (one hx _).mpr ⟨hsettled, hdefined x hx, rfl⟩⟩
  · obtain ⟨first, hfirst⟩ := List.exists_mem_of_ne_nil domain some
    obtain ⟨part, hpart⟩ := hall first hfirst
    refine ⟨_, (whole _).mpr ⟨((one hfirst part).mp hpart).1, fun x hx => ?_, rfl⟩⟩
    obtain ⟨part, hpart⟩ := hall x hx
    exact ((one hx part).mp hpart).2.1
  · obtain ⟨hsettled, hdefined, rfl⟩ := (whole ys).mp hys
    rw [List.forall₂_map_right_iff, List.forall₂_same]
    exact fun x hx => (one hx _).mpr ⟨hsettled, hdefined x hx, rfl⟩

end Pointwise

/-- What is cut into parts and strung together is dealt out again. -/
theorem deal_flatten {α β : Type} (f : α → β) (groups : List (List α)) :
    deal (groups.map List.length) (groups.flatten.map f) = groups.map (List.map f) := by
  induction groups with
  | nil => rfl
  | cons group groups ih =>
    have hlen : (group.map f).length = group.length := List.length_map f
    rw [List.flatten_cons, List.map_append, List.map_cons, deal, List.map_cons, ← hlen,
      List.take_left, List.drop_left, ih]

namespace Engine
variable {e : Engine} {ctx : Context} {r : Resource} {f : Field} {t : Target}

/-- The value that a field has on a record, null where it has none. -/
def held (ctx : Context) (r : Resource) (f : Field) (record : Option Record) : Value :=
  (fieldValue ctx r f record).toOption.getD .null

/-- All records that a relation can lead to, as a batch. -/
def Target.batch (t : Target) (e : Engine) (f : Field) : Batch :=
  ⟨some f, t.resource, t.fields, (t.stored e).map some, t.level⟩

/-- The values of a relation are those of the rows that are rendered for each record. -/
theorem Target.dealt_map (groups : List (List Record)) (row : Option Record → Value) :
    t.dealt f groups (((t.kept f groups).flatten.map some).map row) =
      (t.kept f groups).map fun group => linkedValue f (group.map (row ∘ some)) := by
  rw [Target.dealt, List.map_map (g := row), deal_flatten, List.map_map]
  rfl

end Engine

namespace Batch
variable (e : Engine) (ctx : Context)

/-- A field of a batch is a relation that is rendered deeply, with what it needs to know of its target. -/
def Follows (b : Batch) (f : Field) (t : Engine.Target) : Prop :=
  b.Deep ctx f ∧ ∃ link, f.link? = some link ∧ e.target ctx b.resource f link b.level = .ok t

/-- A batch holds all records that a relation of another can lead to. -/
def Leads (parent child : Batch) : Prop := ∃ f t, parent.Follows e ctx f t ∧ child = t.batch e f

/-- The computed relations that are followed from a batch can be loaded for all of its records together. -/
def Regular (b : Batch) : Prop :=
  ∀ f t, b.Follows e ctx f t → Engine.Computes b.resource f →
    t.Regular e (b.records.map (Engine.held ctx b.resource f))

/-- A batch with one of its records. -/
def only (b : Batch) (record : Option Record) : Batch := { b with records := [record] }

end Batch

namespace Engine
variable {e : Engine} {ctx : Context} {b : Batch} {f : Field} {t : Target}

/-- The values of a relation are found record by record, if its targets are rendered one by one. -/
theorem pointwise_renderRelated {render : Renderer} {link : String} {value : Option Record → Value}
    (ht : e.target ctx b.resource f link b.level = .ok t)
    (regular : Computes b.resource f → t.Regular e (b.records.map value))
    (below : ∃ row, Pointwise (t.batch e f).records
      (fun records => render { t.batch e f with records := records }) row) :
    ∃ items, Pointwise b.records (fun records =>
      e.renderRelated ctx render b.resource f link records (records.map value) b.level) items := by
  obtain ⟨targets, ⟨settled, defined, hload⟩, stored⟩ := pointwise_loadTargets regular
  obtain ⟨row, settled', defined', hrender⟩ := below
  let group (record : Option Record) : List Record :=
    (targets record).take (if f.isList then t.size.toNat else 1)
  refine ⟨fun record => linkedValue f ((group record).map (row ∘ some)), settled ∧ settled',
    fun record => defined record ∧ ∀ target ∈ group record, defined' (some target),
    fun records sub rows => ?_⟩
  have kept : t.kept f (records.map targets) = records.map group := List.map_map
  have dealt : t.dealt f (records.map targets) (((records.map group).flatten.map some).map row) =
      records.map fun record => linkedValue f ((group record).map (row ∘ some)) := by
    rw [← kept, Target.dealt_map, kept, List.map_map]
    rfl
  have within : (records.map group).flatten.map some ⊆ (t.batch e f).records :=
    List.map_subset _ fun target htarget => by
      obtain ⟨_, hgroup, htarget⟩ := List.mem_flatten.mp htarget
      obtain ⟨record, -, rfl⟩ := List.mem_map.mp hgroup
      exact stored record (List.mem_of_mem_take htarget)
  have defined_iff : (∀ target ∈ (records.map group).flatten.map some, defined' target) ↔
      ∀ record ∈ records, ∀ target ∈ group record, defined' (some target) := by
    rw [List.forall_mem_map, ← List.flatMap_def]
    simp only [List.mem_flatMap]
    exact ⟨fun h record hrecord target htarget => h target ⟨record, hrecord, htarget⟩,
      fun h target ⟨record, hrecord, htarget⟩ => h record hrecord target htarget⟩
  have rendered := hrender _ within
  rw [outcome_renderRelated]
  constructor
  · rintro ⟨t', groups, items, ht', hgroups, hitems, rfl⟩
    cases ht.symm.trans ht'
    obtain ⟨hsettled, hdefined, rfl⟩ := (hload records sub groups).mp hgroups
    rw [Target.child, kept] at hitems
    obtain ⟨hsettled', hdefined', rfl⟩ := (rendered items).mp hitems
    exact ⟨⟨hsettled, hsettled'⟩, fun record hrecord =>
      ⟨hdefined record hrecord, defined_iff.mp hdefined' record hrecord⟩, dealt⟩
  · rintro ⟨⟨hsettled, hsettled'⟩, hdefined, rfl⟩
    refine ⟨t, _, _, ht, (hload records sub _).mpr
      ⟨hsettled, fun record hrecord => (hdefined record hrecord).1, rfl⟩, ?_, dealt.symm⟩
    rw [Target.child, kept]
    exact (rendered _).mpr ⟨hsettled', defined_iff.mpr fun record hrecord =>
      (hdefined record hrecord).2, rfl⟩

/-- The values of a field, from those that it holds before links are followed. -/
def columnOf (e : Engine) (ctx : Context) (render : Renderer) (scope : Scope) (b : Batch) (f : Field)
    (records : List (Option Record)) (values : List Value) : Run (List Value) :=
  let plain := values.map (shallow ((e.server.target? b.resource f).map Resource.idKey))
  if !isDeep ctx scope f b.level then return plain
  else f.link?.elim
    (if ctx.query.field.isSome && b.level.isEmpty then return plain
      else Run.fail (.serialization (.noLink b.resource.id f.name)))
    fun link => e.renderRelated ctx render b.resource f link records values b.level

theorem renderColumn_eq {render : Renderer} {scope : Scope} (records : List (Option Record)) :
    e.renderColumn ctx render scope { b with records := records } f =
      Run.ofExcept (records.mapM (fieldValue ctx b.resource f)) >>=
        e.columnOf ctx render scope b f records := by
  unfold renderColumn columnOf
  cases f.link? <;> rfl

/-- A column has its values record by record. -/
theorem pointwise_renderColumn {render : Renderer} {scope : Scope} (hf : f ∈ b.fields)
    (hscope : ctx.query.scope b.level = .ok scope) (regular : b.Regular e ctx)
    (below : ∀ t, b.Follows e ctx f t → ∃ row, Pointwise (t.batch e f).records
      (fun records => render { t.batch e f with records := records }) row) :
    ∃ value, Pointwise b.records (fun records =>
      e.renderColumn ctx render scope { b with records := records } f) value := by
  have plain : Pointwise b.records (fun records => Pure.pure ((records.map (held ctx b.resource f)).map
      (shallow ((e.server.target? b.resource f).map Resource.idKey)))) (e.shown ctx b.resource f) := by
    simp only [List.map_map]
    exact Pointwise.pure _
  suffices h : ∃ value, Pointwise b.records (fun records =>
      e.columnOf ctx render scope b f records (records.map (held ctx b.resource f))) value by
    obtain ⟨value, h⟩ := h
    refine ⟨value, ?_⟩
    simp only [renderColumn_eq]
    exact h.mapM_bind Value.null
  unfold columnOf
  cases hdeep : isDeep ctx scope f b.level with
  | false => exact ⟨_, plain⟩
  | true =>
    simp only [Bool.not_true, Bool.false_eq_true, if_false]
    cases hlink : f.link? with
    | none =>
      simp only [Option.elim_none]
      split
      · exact ⟨_, plain⟩
      · exact ⟨fun _ => .null, .of_error _ fun _ _ h => by cases h⟩
    | some link =>
      simp only [Option.elim_some]
      cases ht : e.target ctx b.resource f link b.level with
      | error err =>
        refine ⟨fun _ => .null, .of_error _ fun records rows h => ?_⟩
        obtain ⟨t, -, -, ht', -⟩ := outcome_renderRelated.mp h
        cases ht.symm.trans ht'
      | ok t =>
        have follows : b.Follows e ctx f t :=
          ⟨⟨hf, by simp [hlink], scope, hscope, hdeep⟩, link, hlink, ht⟩
        exact pointwise_renderRelated ht (regular f t follows) (below t follows)

/-- A batch is rendered record by record, if the relations followed from it and from what it leads to
can be loaded for many records together. -/
theorem pointwise_render (fuel : Nat) (b : Batch)
    (regular : ∀ below, Relation.ReflTransGen (Batch.Leads e ctx) b below → below.Regular e ctx) :
    ∃ row, Pointwise b.records (fun records => e.render ctx fuel { b with records := records }) row := by
  induction fuel generalizing b with
  | zero => exact ⟨fun _ => .null, .of_error _ fun _ _ h => by cases h⟩
  | succ fuel ih =>
    cases hscope : ctx.query.scope b.level with
    | error err =>
      refine ⟨fun _ => .null, .of_error _ fun records rows h => ?_⟩
      obtain ⟨scope, -, hscope', -⟩ := outcome_render.mp h
      cases hscope.symm.trans hscope'
    | ok scope =>
      have column : ∀ f ∈ b.fields, ∃ value, Pointwise b.records (fun records =>
          e.renderColumn ctx (e.render ctx fuel) scope { b with records := records } f) value :=
        fun f hf => pointwise_renderColumn hf hscope (regular b .refl) fun t follows =>
          ih (t.batch e f) fun below reached => regular below (.head ⟨f, t, follows, rfl⟩ reached)
      obtain ⟨value, settled, defined, hcolumns⟩ := Pointwise.each column
      refine ⟨assembled (ctx.query.field.isSome && b.level.isEmpty) b.fields value, settled, defined,
        fun records sub rows => ?_⟩
      have rows_eq := assemble_columns (ctx.query.field.isSome && b.level.isEmpty) b.fields value records
      rw [outcome_render]
      constructor
      · rintro ⟨scope', columns, hscope', hrun, rfl⟩
        cases hscope.symm.trans hscope'
        obtain ⟨hsettled, hdefined, rfl⟩ :=
          (hcolumns records sub columns).mp (Run.outcome_each_eq_ok.mpr hrun)
        exact ⟨hsettled, hdefined, rows_eq⟩
      · rintro ⟨hsettled, hdefined, rfl⟩
        exact ⟨scope, _, hscope, Run.outcome_each_eq_ok.mp
          ((hcolumns records sub _).mpr ⟨hsettled, hdefined, rfl⟩), rows_eq.symm⟩

/-- Rendering many records at once gives what rendering each of them alone gives: it succeeds if all of
these do, and each row is the one row of its record, at every depth of nested relations. -/
theorem render_batch (e : Engine) (ctx : Context) (fuel : Nat) (b : Batch) (some : b.records ≠ [])
    (regular : ∀ below, Relation.ReflTransGen (Batch.Leads e ctx) b below → below.Regular e ctx) :
    ((∃ rows, (e.render ctx fuel b).outcome = .ok rows) ↔
      ∀ record ∈ b.records, ∃ part, (e.render ctx fuel (b.only record)).outcome = .ok part) ∧
    ∀ rows, (e.render ctx fuel b).outcome = .ok rows → List.Forall₂
      (fun record row => (e.render ctx fuel (b.only record)).outcome = .ok [row]) b.records rows := by
  obtain ⟨row, h⟩ := pointwise_render fuel b regular
  exact h.alone some

end Engine

/-! Readers with books on loan -/

namespace Shelf

/-- The books that a reader has on loan, computed from what is stored with the reader. -/
def loans : Field := { title with
  name := "loans"
  owner := "library.reader"
  type := .obj [("items", .str "@book"), ("type", .str "array")]
  source := .context "fields.loans" }

def reader : Resource := { book with
  name := "reader"
  source := some "readers"
  fields := [loans]
  can := none }

/-- Books that are known by what is stored at `key`. -/
def catalogued (key : String) : Resource :=
  { openBooks with fields := [{ title with name := "id", source := .path key }, title] }

def lent : Record := [("fields", .node "id" (.str "a")), ("id", .str "b"), ("meta", .node "title" (.str "Emma"))]

def readers : List Record := [[("loans", .arr [.str "a"])], [("loans", .arr [.str "b"])]]

def lending (key : String) : Engine where
  server := { spaces := [("library", ⟨"library", [("book", catalogued key), ("reader", reader)]⟩)] }
  store := [("books", [lent]), ("readers", readers)]
  settings := {}

def borrowed : Context where
  query := { space := some "library", resource := some "reader", take := some [("loans", .nested {})] }
  request := .null

def lenders : Batch := ⟨none, reader, [loans], readers.map some, Level.root⟩

def loaned (key : String) : Engine.Target where
  resource := catalogued key
  level := ["loans"]
  fields := (catalogued key).fields
  size := (lending key).settings.pageSize
  predicates := []
  sort := []
  source := "books"

theorem target_loans (key : String) :
    (lending key).target borrowed reader loans "book" Level.root = .ok (loaned key) := by
  rfl
/-- From the readers nothing is followed but their loans, and nothing from these. -/
theorem follows_lending {key : String} {below : Batch} {f : Field} {t : Engine.Target}
    (reached : Relation.ReflTransGen (Batch.Leads (lending key) borrowed) lenders below)
    (follows : below.Follows (lending key) borrowed f t) :
    below = lenders ∧ f = loans ∧ t = loaned key := by
  induction reached generalizing f t with
  | refl =>
    obtain ⟨⟨hf, -⟩, link, hlink, ht⟩ := follows
    obtain rfl : f = loans := List.mem_singleton.mp hf
    obtain rfl : "book" = link := Option.some.inj hlink
    exact ⟨rfl, rfl, Except.ok.inj (ht.symm.trans (target_loans key))⟩
  | tail _ leads ih =>
    obtain ⟨f', t', above, rfl⟩ := leads
    obtain ⟨-, -, rfl⟩ := ih above
    obtain ⟨⟨hf, hlink, -⟩, -⟩ := follows
    have unlinked : ∀ f ∈ (catalogued key).fields, f.link? = none := by
      simp only [catalogued, List.forall_mem_cons]
      exact ⟨rfl, rfl, by simp⟩
    rw [unlinked f hf] at hlink
    cases hlink

theorem uniformIds_loans (key : String) :
    UniformIds ((lenders.records.map (Engine.held borrowed reader loans)).flatMap
      (linkedIds (loaned key).resource.idKey)) := by
  have ids : (lenders.records.map (Engine.held borrowed reader loans)).flatMap
      (linkedIds (loaned key).resource.idKey) = [.str "a", .str "b"] := rfl
  rw [ids]
  exact .inl (by simp)

/-- Where the books are known by their own ids, the loans of all readers can be loaded together. -/
theorem regular_lending {below : Batch}
    (reached : Relation.ReflTransGen (Batch.Leads (lending "id") borrowed) lenders below) :
    below.Regular (lending "id") borrowed := by
  intro f t follows _
  obtain ⟨rfl, rfl, rfl⟩ := follows_lending reached follows
  refine ⟨uniformIds_loans "id", by simp [loaned], ?_⟩
  have stored : (loaned "id").stored (lending "id") = [lent] := rfl
  rw [stored, List.forall_mem_singleton]
  intro v hv
  have key : (loaned "id").resource.idKey = "id" := rfl
  rw [key] at hv ⊢
  rw [Record.refer_eq (by decide) (by decide) (by decide) (by decide)]
  cases hv
  rfl

end Shelf

/-- Two readers get their loans as each of them would alone. -/
theorem Engine.render_batch_loans :
    ∃ rows, ((Shelf.lending "id").render Shelf.borrowed 2 Shelf.lenders).outcome = .ok rows ∧
      List.Forall₂ (fun record row => ((Shelf.lending "id").render Shelf.borrowed 2
        (Shelf.lenders.only record)).outcome = .ok [row]) Shelf.lenders.records rows := by
  have rendered : ((Shelf.lending "id").render Shelf.borrowed 2
      Shelf.lenders).outcome.toOption.isSome := by decide +kernel
  obtain ⟨rows, hrows⟩ := Option.isSome_iff_exists.mp rendered
  have hrows := Except.toOption_eq_some.mp hrows
  exact ⟨rows, hrows, (render_batch (Shelf.lending "id") Shelf.borrowed 2 Shelf.lenders
    (by simp [Shelf.lenders, Shelf.readers]) fun _ => Shelf.regular_lending).2 rows hrows⟩

/-- Where books are known by a key that predicates read in another way, one reader is given a book that
was only found for the other. -/
theorem Engine.render_batch_rekeyed :
    let e := Shelf.lending "fields.id"
    (∀ below f t, Relation.ReflTransGen (Batch.Leads e Shelf.borrowed) Shelf.lenders below →
      below.Follows e Shelf.borrowed f t →
        UniformIds ((below.records.map (held Shelf.borrowed below.resource f)).flatMap
          (linkedIds t.resource.idKey)) ∧ ∀ key ∈ t.sort, OneKind (t.stored e) key.path) ∧
    ∃ rows, (e.render Shelf.borrowed 2 Shelf.lenders).outcome = .ok rows ∧
      ¬List.Forall₂ (fun record row => (e.render Shelf.borrowed 2
        (Shelf.lenders.only record)).outcome = .ok [row]) Shelf.lenders.records rows := by
  intro e
  refine ⟨fun below f t reached follows => ?_, ?_⟩
  · obtain ⟨rfl, rfl, rfl⟩ := Shelf.follows_lending reached follows
    exact ⟨Shelf.uniformIds_loans _, by simp [Shelf.loaned]⟩
  · let first : Option Record := some [("loans", .arr [.str "a"])]
    have rendered : (e.render Shelf.borrowed 2 Shelf.lenders).outcome.toOption.isSome := by
      decide +kernel
    have differ : (e.render Shelf.borrowed 2 Shelf.lenders).outcome.toOption.map
          (fun rows => rows.head?.map Value.text) ≠
        (e.render Shelf.borrowed 2 (Shelf.lenders.only first)).outcome.toOption.map
          fun rows => rows.head?.map Value.text := by decide +kernel
    obtain ⟨rows, hrows⟩ := Option.isSome_iff_exists.mp rendered
    refine ⟨rows, Except.toOption_eq_some.mp hrows, fun same => ?_⟩
    obtain ⟨row, rest, hrow, -, rfl⟩ := List.forall₂_cons_left_iff.mp same
    rw [hrows, Except.toOption_eq_some.mpr hrow] at differ
    exact differ rfl

end RecordGraph
