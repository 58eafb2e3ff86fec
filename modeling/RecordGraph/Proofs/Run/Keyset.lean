import RecordGraph.Proofs.Predicate.Data
import RecordGraph.Proofs.Run.Paging
import RecordGraph.Proofs.Run.Record
import RecordGraph.Proofs.Store.Columns
import RecordGraph.Proofs.Store.Sorting

/-!
Following cursors that hold values. A page behind a value shows the records of greater values, and its
cursor holds the value of its last record. The walk visits every later record once, if the values that
are read back from the cursors divide the records as the values they stand for.
-/
namespace RecordGraph

/-! Cursors that hold a value -/

namespace Value
variable {v w : Value}

/-- A number, a text or a truth value: what is compared. -/
def IsScalar (v : Value) : Prop := (Expr.order v v).isSome

theorem isScalar_of_order (h : (Expr.order v w).isSome) : v.IsScalar ∧ w.IsScalar := by
  cases v <;> cases w <;> first | exact ⟨rfl, rfl⟩ | cases h

theorem IsScalar.depth (h : v.IsScalar) : v.depth = 0 := by
  cases v <;> first | rfl | cases h

theorem IsScalar.isCanonical (h : v.IsScalar) : v.Canonical := by
  cases v <;> trivial

theorem IsScalar.reread (h : v.IsScalar) (hw : v.reread = some w) : w.IsScalar := by
  cases v with
  | num n =>
    obtain ⟨m, -, rfl⟩ := Option.map_eq_some_iff.mp hw
    rfl
  | str | bool =>
    cases hw
    rfl
  | _ => cases h

theorem IsScalar.isMapless (h : v.IsScalar) : v.isMapless := by
  cases v <;> first | rfl | cases h

end Value

/-- A cursor that holds a value is read back from its token with the value reread. -/
theorem Cursor.decode_keyset {name : String} {v w : Value} (scalar : v.IsScalar)
    (hw : v.reread = some w) :
    decode (keyset [(name, v)]).encode = .ok (keyset [(name, w)]) := by
  have formed : (keyset [(name, v)]).Formed := by
    constructor
    · exact Value.canonical_node_iff.mpr (Value.canonical_node_iff.mpr scalar.isCanonical)
    · simp [toValue, Value.node, Value.depth, Value.depthOfEntries, Value.maxDepth, scalar.depth]
  refine (decode_token_eq_ok formed).mpr ?_
  rw [reread, Value.rereadEntries, hw]
  rfl

/-- A page behind the values of a cursor. -/
theorem Window.ofPage_keyset {size : Option UInt64} {defaultSize : UInt64}
    (holds : size.getD defaultSize ≠ 0) {token : String} {after : Entries Value}
    (decoded : Cursor.decode token = .ok (.keyset after)) :
    ofPage (some ⟨size, some token⟩) defaultSize =
      .ok ⟨size.getD defaultSize, 0, some (.keyset after)⟩ := by
  rw [ofPage, Option.bind_some, Option.bind_some]
  dsimp only
  rw [decoded, if_neg holds]
  rfl

/-! Records behind a value -/

namespace Record
variable {path : String} {v w : Value} {record other : Record}

/-- What a record holds at a path, null if nothing. -/
def held (record : Record) (path : String) : Value := (record.read path).getD .null

/-- Whether a record holds more than a value. -/
def exceeds (path : String) (v : Value) (record : Record) : Bool :=
  Expr.order (record.held path) v = some .gt

/-- One record holds less than the other. -/
def Precedes (path : String) (a b : Record) : Prop :=
  Expr.order (a.held path) (b.held path) = some .lt

instance (path : String) (a b : Record) : Decidable (Precedes path a b) :=
  inferInstanceAs (Decidable (_ = _))

/-- A path of filled segments that is neither rooted nor quoted refers to what the record holds there. -/
theorem refer_path (filled : "" ∉ Text.pieces '.' path) (unscoped : Expr.isScoped path = false)
    (bare : Expr.unquoted? path = none) : record.refer path = record.held path := by
  rw [refer, Expr.evalText_path filled bare, seen_of_unscoped filled unscoped, held]

end Record

/-- The value that is read back from a cursor divides the records as the value it stands for. -/
def Value.Faithful (path : String) (records : List Record) (v : Value) : Prop :=
  ∃ w, v.reread = some w ∧ ∀ record ∈ records, record.exceeds path w = record.exceeds path v

/-- Values that are read back as they are, as texts and integers, divide every list of records. -/
theorem Value.faithful_of_reread {path : String} {records : List Record} {v : Value}
    (h : v.reread = some v) : v.Faithful path records := ⟨v, h, fun _ _ => rfl⟩

/-- A field name and its storage path that each read as a path, and as nothing else. -/
structure Server.IsColumn (s : Server) (r : Resource) (name path : String) : Prop where
  stored : s.storagePath r name = .ok path
  named : name ≠ ""
  unrooted : Text.afterChar? '.' name = none
  unquoted : Expr.unquoted? name = none
  filled : "" ∉ Text.pieces '.' path
  unscoped : Expr.isScoped path = false
  bare : Expr.unquoted? path = none

/-- The records that hold more than a value at a path. -/
def exceeding (path : String) (v : Value) : Value := .node ">" (.arr [.str path, Expr.makeLiteral v])

namespace Server.IsColumn
variable {s : Server} {r : Resource} {name path : String}

theorem toStorage (h : s.IsColumn r name path) : s.toStorage r (.str name) = .ok (.str path) := by
  simp [Server.toStorage, h.named, h.unrooted, h.unquoted, h.stored]

theorem toStorage_exceeding (h : s.IsColumn r name path) {v : Value} (mapless : v.isMapless) :
    s.toStorage r (exceeding name v) = .ok (exceeding path v) := by
  rw [exceeding, toStorage_node _ _ (by decide), Server.toStorage, toStorageItems_eq, Except.mapM_cons,
    Except.mapM_cons, h.toStorage, v.toStorage_makeLiteral mapless]
  rfl

theorem isMatch_exceeding (h : s.IsColumn r name path) {v : Value} (mapless : v.isMapless)
    (record : Record) : Store.isMatch (some (exceeding path v)) record = .ok (record.exceeds path v) := by
  have hkey : Expr.eval (.node "fields" (.obj record)) (.str path) = .ok (record.held path) :=
    congrArg Except.ok (Record.refer_path h.filled h.unscoped h.bare)
  rw [Store.isMatch, exceeding, Expr.eval_node_binary _ rfl hkey (v.eval_makeLiteral mapless _)]
  rfl

end Server.IsColumn

/-- A stored field whose name and storage path each read as a path, and as nothing else. -/
structure Resource.SortsBy (r : Resource) (name path : String) : Prop where
  stored : ∃ f, r.field? name = some f ∧ f.source.storagePath? = some path
  named : name ≠ ""
  undotted : '.' ∉ name.toList
  ascending : Text.afterChar? '-' name = none
  unquoted : Expr.unquoted? name = none
  filled : "" ∉ Text.pieces '.' path
  unscoped : Expr.isScoped path = false
  bare : Expr.unquoted? path = none

namespace Resource.SortsBy
variable {r : Resource} {name path : String}

theorem storagePath (h : r.SortsBy name path) (s : Server) : s.storagePath r name = .ok path := by
  obtain ⟨f, found, stored⟩ := h.stored
  have hname : r.storagePath name = .ok (f, path) := by simp [Resource.storagePath, found, stored]
  simp [Server.storagePath, Text.pieces_of_not_mem h.undotted, Server.storageSegments, hname]

theorem sortKeys (h : r.SortsBy name path) (s : Server) : s.sortKeys r [name] = .ok [⟨path, false⟩] := by
  have hkey : SortKey.ofText name = ⟨name, false⟩ := by rw [SortKey.ofText, h.ascending]
  rw [Server.sortKeys, Except.mapM_cons, hkey]
  dsimp only
  rw [h.storagePath]
  rfl

theorem sort_eq (h : r.SortsBy name path) {e : Engine} {sort : List SortKey}
    (sorted : e.prepareSort r (some [name]) = .ok sort) : sort = [⟨path, false⟩] := by
  rw [Engine.prepareSort, h.sortKeys] at sorted
  exact (Except.ok.inj sorted).symm

theorem isColumn (h : r.SortsBy name path) (s : Server) : s.IsColumn r name path where
  stored := h.storagePath s
  named := h.named
  unrooted := Text.afterChar?_of_not_mem h.undotted
  unquoted := h.unquoted
  filled := h.filled
  unscoped := h.unscoped
  bare := h.bare

end Resource.SortsBy

theorem Expr.evalAll_append (c : Value) (xs ys : List Value) :
    evalAll c (xs ++ ys) = (evalAll c xs).bind fun all => if all then evalAll c ys else .ok false := by
  induction xs with
  | nil => rfl
  | cons x xs ih =>
    rw [List.cons_append, evalAll, evalAll]
    cases eval c x with
    | error fault => rfl
    | ok v =>
      rw [Except.ok_bind, Except.ok_bind]
      cases truthy v with
      | true => exact ih
      | false => rfl

/-- One predicate more selects among what is selected. -/
theorem Store.select_conjoin_concat {ps : List Value} {p : Value} {keep : Record → Bool}
    {rs found : List Record} (selected : select (conjoin ps) rs = .ok found)
    (h : ∀ r ∈ rs, isMatch (some p) r = .ok (keep r)) :
    select (conjoin (ps ++ [p])) rs = .ok (found.filter keep) := by
  obtain ⟨defined, rfl⟩ := select_eq_ok.mp selected
  rw [List.filter_filter]
  refine select_eq_ok_filter fun r hr => ?_
  obtain ⟨kept, hkept⟩ := defined r hr
  have hp := h r hr
  rw [hkept]
  rw [isMatch_conjoin_eq] at hkept ⊢
  have single : isMatch (conjoin [p]) r = .ok (keep r) := hp
  rw [isMatch_conjoin_eq] at single
  rw [Expr.evalAll_append]
  cases hall : Expr.evalAll (.node "fields" (.obj r)) ps with
  | error fault =>
    rw [hall] at hkept
    cases hkept
  | ok all =>
    rw [hall] at hkept
    cases hkept
    cases kept with
    | true => simpa [Except.toOption] using single
    | false => simp [Except.toOption, Except.mapError]

namespace Engine
variable {e : Engine} {r : Resource} {name path : String}

theorem keysetStorage_exceeding (h : r.SortsBy name path) {v : Value} (scalar : v.IsScalar)
    (size offset : UInt64) :
    e.keysetStorage r ⟨size, offset, some (.keyset [(name, v)])⟩ true = .ok [exceeding path v] := by
  change (e.server.toStorage r (exceeding name v)).map _ = _
  rw [(h.isColumn e.server).toStorage_exceeding scalar.isMapless]
  rfl

/-- The page of the records behind a value: as many as it holds, and a cursor with the value of the last
of them if there are more. -/
def pageBehind (name path : String) (size : UInt64) (total : Option Nat) (shown : Record → Value)
    (rest : List Record) : Response where
  data := .arr ((rest.take size.toNat).map shown)
  page :=
    if size.toNat < rest.length then
      [("data", ⟨(Cursor.keyset
        [(name, ((rest.take size.toNat).getLast?.map fun last => last.held path).getD .null)]).encode,
        total⟩)]
    else []

theorem turnPage_keyset (e : Engine) (h : r.SortsBy name path) {size : UInt64}
    (holds : 0 < size.toNat) {v : Value} {rest : List Record} (counted : rest.length < UInt64.size)
    (total : Option Nat) (shown : Record → Value) {w : Window} (hw : w = ⟨size, 0, some (.keyset [(name, v)])⟩) :
    e.turnPage r w none ⟨Store.window w.offset (some w.limit) rest, total⟩ =
      .ok (rest.take size.toNat, (pageBehind name path size total shown rest).page) := by
  subst hw
  have hsize := size.toNat_lt_size
  have hlimit : (Window.mk size 0 (some (.keyset [(name, v)]))).limit.toNat =
      min (size.toNat + 1) (UInt64.size - 1) := Window.toNat_oneMore size
  have hwindow (limit : UInt64) : Store.window 0 (some limit) rest = rest.take limit.toNat := rfl
  have htake : (rest.take (Window.mk size 0 (some (.keyset [(name, v)]))).limit.toNat).take size.toNat =
      rest.take size.toNat := by
    rw [List.take_take]
    congr 1
    omega
  unfold turnPage pageBehind
  dsimp only
  rw [hwindow, List.length_take, htake]
  by_cases hmore : size.toNat < rest.length
  · obtain ⟨last, hlast⟩ : ∃ last, (rest.take size.toNat).getLast? = some last := by
      cases hl : (rest.take size.toNat).getLast? with
      | some last => exact ⟨last, rfl⟩
      | none =>
        have hlength := congrArg List.length (List.getLast?_eq_none_iff.mp hl)
        rw [List.length_take, List.length_nil] at hlength
        omega
    have hvalues : e.keysetValues r ⟨size, 0, some (.keyset [(name, v)])⟩ (some last) =
        .ok (some [(name, last.held path)]) := by
      simp only [keysetValues, Entries.keys, List.map_cons, List.map_nil, Except.mapM_cons,
        h.storagePath]
      rfl
    rw [if_neg (by omega), if_pos hmore, hlast, hvalues]
    rfl
  · rw [if_pos (by omega), if_neg hmore, List.take_of_length_le (by omega),
      List.take_of_length_le (by omega)]

/-- The plan of a list query behind a cursor with one predicate. -/
theorem plan_keyset (ctx : Context) {access : Access} (source : String) {w : Window} {above : Value}
    {predicates : List Value} {sort : List SortKey} (single : r.singleton = false)
    (record : ctx.query.record = none) (field : ctx.query.field = none)
    (hw : Window.ofPage ctx.query.page e.settings.pageSize = .ok w)
    (keyset : e.keysetStorage r w true = .ok [above])
    (prepared : e.prepareAll r ctx access ctx.query.filter = .ok predicates)
    (sorted : e.prepareSort r ctx.query.sort = .ok sort) :
    e.plan ctx r .resource access source = .ok ⟨w, true, ⟨source, conjoin (predicates ++ [above]), sort,
      w.offset, some w.limit, e.settings.pageTotal⟩⟩ := by
  have hscope := scope_root_list field
  unfold plan rootPredicates
  rw [hscope]
  simp only [Except.monad_bind, Except.ok_bind, Scope.page?, Scope.state?, Option.bind_some, hw, single,
    Bool.not_false, Bool.and_true, decide_true, if_true, keyset, record, Option.map_none,
    Option.toList_none, List.append_nil, Bool.true_and, prepared, sorted, Except.monad_pure]

variable {q : Query} {request : Value} {source : String} {fields : List Field} {matched : List Record}

/-- Behind a cursor with a value, a list shows its records that exceed the value. -/
theorem execute_behind (list : e.IsList q r source) (blind : e.Blind r q request)
    (h : r.SortsBy name path) (ordered : q.sort = some [name])
    (lists : e.Lists ⟨q, request⟩ r source fields matched) (counted : matched.length < UInt64.size)
    (valued : ∀ f ∈ fields, ∀ record ∈ matched,
      ∃ v, fieldValue ⟨q, request⟩ r f (some record) = .ok v)
    (oneKind : OneKind matched path) {page : Option Page} {size : UInt64} (holds : 0 < size.toNat)
    {v : Value} (scalar : v.IsScalar)
    (hw : Window.ofPage page e.settings.pageSize = .ok ⟨size, 0, some (.keyset [(name, v)])⟩) :
    (e.execute { q with page := page } request).outcome = .ok (pageBehind name path size
      (if e.settings.pageTotal then some (matched.filter (Record.exceeds path v)).length else none)
      (fun record => e.row ⟨q, request⟩ r fields (some record))
      (matched.filter (Record.exceeds path v))) := by
  have list' := list.paged page
  have lists' := lists.of_blind blind list.field page
  have hrow (record : Option Record) := lists.row_paged blind list.field page record
  have hvalue {f : Field} (hf : f ∈ fields) (record : Option Record) :=
    lists.fieldValue_paged blind list.field page hf record
  cases lists' with
  | @intro access _ predicates sort records found allowed opened taken prepared sorted stored selected =>
  have hsort : sort = [⟨path, false⟩] := h.sort_eq (ordered ▸ sorted)
  have hrest : (sortRecords sort found).filter (Record.exceeds path v) =
      sortRecords sort (found.filter (Record.exceeds path v)) := by
    refine filter_sortRecords (fun key hkey => ?_) _
    rw [hsort, List.mem_singleton] at hkey
    subst hkey
    exact oneKind.mono fun record hrecord => mem_sortRecords.mpr hrecord
  have hplan := plan_keyset ⟨{ q with page := page }, request⟩ source list.many list.record list.field hw
    (keysetStorage_exceeding h scalar size 0) prepared sorted
  have hfetch := (fetch_window (Window.mk size 0 (some (.keyset [(name, v)]))) sort
    e.settings.pageTotal).mpr ⟨records, _, stored,
      Store.select_conjoin_concat selected fun record _ =>
        (h.isColumn e.server).isMatch_exceeding scalar.isMapless record, rfl⟩
  rw [execute_list list', getResource_stored list'.found list'.stored]
  refine ⟨access, fields, allowed, opened, taken, ?_⟩
  unfold readStored
  refine Run.outcome_bind.mpr ⟨_, hplan, Run.outcome_bind.mpr ⟨_, hfetch, ?_⟩⟩
  simp only [if_true, ← hrest]
  have hcounted : ((sortRecords sort found).filter (Record.exceeds path v)).length < UInt64.size :=
    (List.length_filter_le _ _).trans_lt counted
  have turned := e.turnPage_keyset h holds hcounted (if e.settings.pageTotal then
    some ((sortRecords sort found).filter (Record.exceeds path v)).length else none)
    (fun record => e.row ⟨q, request⟩ r fields (some record)) (v := v) rfl
  refine Run.outcome_bind.mpr ⟨_, turned, ?_⟩
  refine Run.outcome_bind.mpr ⟨_, (renderRoot_flat list'.flat list'.field).mpr ⟨?_, rfl⟩, ?_⟩
  · intro f hf record hmem
    rw [hvalue hf]
    exact valued f hf record (List.mem_of_mem_filter (List.mem_of_mem_take hmem))
  · simp only [hrow]
    rfl

/-! Walking behind a value -/

/-- Among records in order, those behind the last of a page are those that come after it. -/
theorem filter_behind {v : Value} {before after : List Record} {last : Record}
    (sorted : matched.Pairwise (Record.Precedes path))
    (h : matched.filter (Record.exceeds path v) = before ++ last :: after) :
    matched.filter (Record.exceeds path (last.held path)) = after := by
  have hlast : last.exceeds path v := by
    have hmem : last ∈ matched.filter (Record.exceeds path v) := by simp [h]
    exact (List.mem_filter.mp hmem).2
  have hsub : matched.filter (Record.exceeds path (last.held path)) =
      (matched.filter (Record.exceeds path v)).filter (Record.exceeds path (last.held path)) := by
    rw [List.filter_filter]
    refine List.filter_congr fun record _ => ?_
    cases hgt : record.exceeds path (last.held path) with
    | false => rfl
    | true =>
      have htrans := Expr.order_trans (of_decide_eq_true hgt) (of_decide_eq_true hlast)
      exact (decide_eq_true htrans).symm
  have hrest := h ▸ sorted.filter (Record.exceeds path v)
  obtain ⟨-, hcons, hbefore⟩ := List.pairwise_append.mp hrest
  obtain ⟨hafter, -⟩ := List.pairwise_cons.mp hcons
  have self : last.exceeds path (last.held path) = false := by
    have hswap := Expr.order_swap (last.held path) (last.held path)
    refine decide_eq_false fun hgt => ?_
    rw [hgt] at hswap
    cases hswap
  have none : before.filter (Record.exceeds path (last.held path)) = [] := by
    refine List.filter_eq_nil_iff.mpr fun record hrecord => ?_
    have hlt : Expr.order (record.held path) (last.held path) = some .lt :=
      hbefore record hrecord last List.mem_cons_self
    simp [Record.exceeds, hlt]
  have all : after.filter (Record.exceeds path (last.held path)) = after := by
    refine List.filter_eq_self.mpr fun record hrecord => decide_eq_true ?_
    rw [Expr.order_swap, hafter record hrecord]
    rfl
  rw [hsub, h, List.filter_append, none, List.nil_append, List.filter_cons, self, all]
  rfl

/-- Pages that show rows one after the other, each cursor holding a value of one key. -/
structure Visits (name : String) (rows : List Value) (pages : List Response) : Prop where
  cursors : ∀ response ∈ pages, ∀ more, response.page.get? "data" = some more →
    ∃ v, Cursor.decode more.after = .ok (.keyset [(name, v)])
  parts : ∃ parts : List (List Value), pages.map Response.data = parts.map .arr ∧ parts.flatten = rows

section pageBehind
variable {size : UInt64} {total : Option Nat} {shown : Record → Value} {rest : List Record}

theorem visits_last (ends : rest.length ≤ size.toNat) :
    Visits name (rest.map shown) [pageBehind name path size total shown rest] where
  cursors := by
    simp only [List.mem_singleton, forall_eq]
    intro more goesOn
    rw [pageBehind, if_neg (by omega)] at goesOn
    cases goesOn
  parts := by
    refine ⟨[rest.map shown], ?_, by simp⟩
    rw [List.map_singleton, pageBehind, List.take_of_length_le ends]
    rfl

/-- A full page comes before the pages behind it. -/
theorem Visits.cons {pages : List Response} {token : String} {v : Value}
    (goesOn : (pageBehind name path size total shown rest).page.get? "data" = some ⟨token, total⟩)
    (decoded : Cursor.decode token = .ok (.keyset [(name, v)]))
    (h : Visits name ((rest.drop size.toNat).map shown) pages) :
    Visits name (rest.map shown) (pageBehind name path size total shown rest :: pages) := by
  obtain ⟨cursors, parts, hdata, hflatten⟩ := h
  refine ⟨List.forall_mem_cons.mpr ⟨fun more hmore => ?_, cursors⟩,
    (rest.take size.toNat).map shown :: parts, ?_, ?_⟩
  · cases goesOn.symm.trans hmore
    exact ⟨v, decoded⟩
  · rw [List.map_cons, List.map_cons, hdata]
    rfl
  · rw [List.flatten_cons, hflatten, ← List.map_append, List.take_append_drop]

/-- A page that more records follow ends with one of them, whose value its cursor holds. -/
theorem exists_last (name path : String) (total : Option Nat) (shown : Record → Value)
    (holds : 0 < size.toNat) (more : size.toNat < rest.length) :
    ∃ before last, rest = before ++ last :: rest.drop size.toNat ∧
      (pageBehind name path size total shown rest).page.get? "data" =
        some ⟨(Cursor.keyset [(name, last.held path)]).encode, total⟩ := by
  obtain hnil | ⟨before, last, htake⟩ := List.eq_nil_or_concat (rest.take size.toNat)
  · have hlength := congrArg List.length hnil
    rw [List.length_take, List.length_nil] at hlength
    omega
  · rw [List.concat_eq_append] at htake
    refine ⟨before, last, ?_, ?_⟩
    · rw [List.append_cons, ← htake, List.take_append_drop]
    · rw [pageBehind, if_pos more, htake, List.getLast?_concat]
      rfl

end pageBehind

/-- From a value on, the walk shows the records that exceed it. -/
theorem walk_behind {size : UInt64} (holds : 0 < size.toNat) (total : List Record → Option Nat)
    {shown : Record → Value} (sorted : matched.Pairwise (Record.Precedes path))
    (scalars : ∀ record ∈ matched, (record.held path).IsScalar)
    (answers : ∀ token v, v.IsScalar → Cursor.decode token = .ok (.keyset [(name, v)]) →
      (e.execute (q.continued token) request).outcome =
        .ok (pageBehind name path size (total (matched.filter (Record.exceeds path v))) shown
          (matched.filter (Record.exceeds path v)))) {token : String} {v : Value} (scalar : v.IsScalar)
    (decoded : Cursor.decode token = .ok (.keyset [(name, v)]))
    (faithful : ∀ record ∈ matched, record.exceeds path v → (record.held path).Faithful path matched) :
    ∃ pages, e.Walk request (q.continued token) pages ∧
      Visits name ((matched.filter (Record.exceeds path v)).map shown) pages := by
  -- every page leaves fewer records behind it
  induction hleft : (matched.filter (Record.exceeds path v)).length using Nat.strong_induction_on
    generalizing token v with
  | _ left ih =>
  have answered := answers token v scalar decoded
  by_cases more : size.toNat < (matched.filter (Record.exceeds path v)).length
  · obtain ⟨before, last, hrest, goesOn⟩ := exists_last name path
      (total (matched.filter (Record.exceeds path v))) shown holds more
    have hlast : last ∈ matched.filter (Record.exceeds path v) := by
      rw [hrest]
      simp
    obtain ⟨hstored, hgt⟩ := List.mem_filter.mp hlast
    obtain ⟨w, hw, alike⟩ := faithful last hstored hgt
    have hcursor : Cursor.decode (Cursor.keyset [(name, last.held path)]).encode =
        .ok (.keyset [(name, w)]) := Cursor.decode_keyset (scalars last hstored) hw
    have hnext : matched.filter (Record.exceeds path w) =
        (matched.filter (Record.exceeds path v)).drop size.toNat :=
      (List.filter_congr alike).trans (filter_behind sorted hrest)
    have hfewer : (matched.filter (Record.exceeds path w)).length < left := by
      rw [hnext, List.length_drop]
      omega
    have faithful' (record) (hrecord : record ∈ matched) (h : record.exceeds path w) :
        (record.held path).Faithful path matched := by
      have hnew : record ∈ matched.filter (Record.exceeds path w) := List.mem_filter.mpr ⟨hrecord, h⟩
      rw [hnext] at hnew
      exact faithful record hrecord (List.mem_filter.mp (List.mem_of_mem_drop hnew)).2
    obtain ⟨pages, walk, visits⟩ :=
      ih _ hfewer ((scalars last hstored).reread hw) hcursor faithful' rfl
    rw [hnext] at visits
    exact ⟨_, .next answered goesOn (by rwa [q.continued_continued]), visits.cons goesOn hcursor⟩
  · have ends : (pageBehind name path size (total (matched.filter (Record.exceeds path v))) shown
        (matched.filter (Record.exceeds path v))).page.get? "data" = none := by
      rw [pageBehind, if_neg more]
      rfl
    exact ⟨_, .last answered ends, visits_last (by omega)⟩

/-- In a column, values that can be compared are in their own order. -/
theorem orderColumn_of_order {left right : Option Value} {o : Ordering}
    (h : Expr.order (left.getD .null) (right.getD .null) = some o) : orderColumn left right = o := by
  cases left with
  | none => cases right <;> cases h
  | some v =>
    cases right with
    | none => cases v <;> cases h
    | some w => exact (congrArg (fun order => Option.getD order _) h)

/-- Records that differ in a column are in order once they are sorted by it. -/
theorem Lists.precedes (h : r.SortsBy name path) (ordered : q.sort = some [name])
    (lists : e.Lists ⟨q, request⟩ r source fields matched) (oneKind : OneKind matched path)
    (distinct : matched.Pairwise fun a b => Record.Precedes path a b ∨ Record.Precedes path b a) :
    matched.Pairwise (Record.Precedes path) := by
  cases lists with
  | @intro access _ predicates sort records found allowed opened taken prepared sorted stored selected =>
  have hsort : sort = [⟨path, false⟩] := h.sort_eq (ordered ▸ sorted)
  have hkinds : ∀ key ∈ sort, OneKind found key.path := by
    rw [hsort]
    simpa using oneKind.mono fun record hrecord => mem_sortRecords.mpr hrecord
  refine (distinct.and (pairwise_sortRecords hkinds)).imp fun {a b} hab => ?_
  obtain ⟨hlt | hgt, hle⟩ := hab
  · exact hlt
  · have hswap : Expr.order (a.held path) (b.held path) = some .gt := by
      rw [Expr.order_swap, hgt]
      rfl
    rw [hsort, orderRecords_cons, SortKey.order, orderColumn_of_order hswap] at hle
    cases hle

/-- The one page of a list that holds all of its records shows each of them, in their order. -/
theorem execute_whole (list : e.IsList q r source) (blind : e.Blind r q request) {large : UInt64}
    (enough : (e.matching r ⟨q, request⟩).length ≤ large.toNat) {whole : Response}
    (answered : (e.execute { q with page := some ⟨some large, none⟩ } request).outcome = .ok whole) :
    ∃ fields matched, e.Lists ⟨q, request⟩ r source fields matched ∧
      (∀ f ∈ fields, ∀ record ∈ matched, ∃ v, fieldValue ⟨q, request⟩ r f (some record) = .ok v) ∧
      whole.data = .arr (matched.map fun record => e.row ⟨q, request⟩ r fields (some record)) := by
  have hlarge : Window.ofPage (some ⟨some large, none⟩) e.settings.pageSize =
      .ok ⟨if large = 0 then 1 else large, 0, none⟩ := rfl
  have counted := enough.trans_lt large.toNat_lt_size
  rw [execute_page list blind counted hlarge (isPositional_start _)] at answered
  obtain ⟨fields, matched, lists, valued, rfl⟩ := answered
  have hcut : (Window.mk (if large = 0 then 1 else large) 0 none).cut matched = matched := by
    have hfits : matched.length ≤ (if large = 0 then 1 else large).toNat := by
      rw [lists.length list]
      split
      · rename_i hzero
        rw [hzero] at enough
        exact enough.trans (Nat.zero_le _)
      · exact enough
    exact List.take_of_length_le hfits
  rw [hcut] at valued
  exact ⟨fields, matched, lists, valued, by rw [hcut]⟩

/-- Following cursors that hold a value of an ascending key ends. Each cursor holds a value of the key,
and the pages show the rows of the records that exceed the first value, each once and in the order of
the key, if the values read back from the cursors divide the records as those they stand for. -/
theorem walk_keyset (e : Engine) (q : Query) (request : Value) {r : Resource} {source : String}
    (list : e.IsList q r source) (blind : e.Blind r q request) {name path : String}
    (key : r.SortsBy name path) (ordered : q.sort = some [name]) {size : UInt64}
    (hsize : (q.page.bind Page.size).getD e.settings.pageSize = size) (holds : size ≠ 0)
    {token : String} (start : q.page.bind Page.after = some token) {v : Value} (scalar : v.IsScalar)
    (decoded : Cursor.decode token = .ok (.keyset [(name, v)])) {large : UInt64}
    (enough : (e.matching r ⟨q, request⟩).length ≤ large.toNat) {whole : Response}
    (answered : (e.execute { q with page := some ⟨some large, none⟩ } request).outcome = .ok whole)
    (distinct : (e.matching r ⟨q, request⟩).Pairwise fun a b =>
      Record.Precedes path a b ∨ Record.Precedes path b a)
    (comparable : ∀ record ∈ e.matching r ⟨q, request⟩, (Expr.order (record.held path) v).isSome)
    (faithful : ∀ record ∈ e.matching r ⟨q, request⟩, record.exceeds path v →
      (record.held path).Faithful path (e.matching r ⟨q, request⟩)) :
    ∃ (fields : List Field) (matched : List Record) (pages : List Response),
      takeFields r "get" Level.root ⟨q, request⟩ e.settings = .ok fields ∧
      matched.Perm (e.matching r ⟨q, request⟩) ∧ matched.Pairwise (Record.Precedes path) ∧
      whole.data = .arr (matched.map fun record => e.row ⟨q, request⟩ r fields (some record)) ∧
      (∀ others, e.Walk request q others ↔ others = pages) ∧
      Visits name ((matched.filter (Record.exceeds path v)).map
        fun record => e.row ⟨q, request⟩ r fields (some record)) pages := by
  have hpos : 0 < size.toNat := Nat.pos_of_ne_zero fun h => holds (UInt64.toNat_inj.mp h)
  obtain ⟨fields, matched, lists, valued, hwhole⟩ := execute_whole list blind enough answered
  have perm := lists.perm list.stored
  have oneKind : OneKind matched path := by
    refine ⟨Store.kindName v, fun record hrecord u hu => .inr ?_⟩
    have hheld : record.held path = u := by rw [Record.held, hu]; rfl
    exact Expr.kindName_eq_of_order (hheld ▸ comparable record (perm.mem_iff.mp hrecord))
  have sorted := lists.precedes key ordered oneKind
    ((perm.pairwise_iff fun h => h.symm).mpr distinct)
  have counted : matched.length < UInt64.size := by
    rw [lists.length list]
    exact enough.trans_lt large.toNat_lt_size
  have answers (token : String) (v : Value) (scalar : v.IsScalar)
      (decoded : Cursor.decode token = .ok (.keyset [(name, v)])) := by
    have hw : Window.ofPage (some ⟨q.page.bind Page.size, some token⟩) e.settings.pageSize =
        .ok ⟨size, 0, some (.keyset [(name, v)])⟩ := by
      rw [← hsize]
      exact Window.ofPage_keyset (by rwa [hsize]) decoded
    have hanswer := execute_behind list blind key ordered lists counted valued oneKind hpos scalar hw
    rwa [← q.continued_eq] at hanswer
  have again : q.continued token = q := by
    obtain ⟨page, hpage, hafter⟩ := Option.bind_eq_some_iff.mp start
    have hsame : (⟨q.page.bind Page.size, some token⟩ : Page) = page := by rw [hpage, ← hafter]; rfl
    rw [q.continued_eq, hsame, ← hpage]
    cases q
    rfl
  have faithful' (record) (hrecord : record ∈ matched) (h : record.exceeds path v) :
      (record.held path).Faithful path matched := by
    obtain ⟨w, hw, alike⟩ := faithful record (perm.mem_iff.mp hrecord) h
    exact ⟨w, hw, fun other hother => alike other (perm.mem_iff.mp hother)⟩
  obtain ⟨pages, walk, visits⟩ := walk_behind hpos
    (fun rest => if e.settings.pageTotal then some rest.length else none) sorted
    (fun record hrecord => (Value.isScalar_of_order (comparable record (perm.mem_iff.mp hrecord))).1)
    answers scalar decoded faithful'
  rw [again] at walk
  refine ⟨fields, matched, pages, ?_, perm, sorted, hwhole,
    fun others => ⟨fun h => h.unique walk, fun h => h ▸ walk⟩, visits⟩
  cases lists with
  | intro _ _ taken => exact taken

end Engine

/-! Grains by their mass, one a page -/

namespace Lab

def mass : Field := { Shelf.title with name := "mass", type := .str "any", source := .path "mass" }

def grain : Resource where
  name := "grain"
  space := "lab"
  source := some "grains"
  singleton := false
  idName := "id"
  fields := [mass]
  can := none
  description := none

/-- Grains of the given masses. -/
def grains (masses : List Value) : Engine where
  server := { spaces := [("lab", ⟨"lab", [("grain", grain)]⟩)] }
  store := [("grains", masses.map fun m => [("mass", m)])]
  settings := {}

/-- The grains above a mass, from the lightest on. -/
def above (v : Value) : Query where
  space := some "lab"
  resource := some "grain"
  sort := some ["mass"]
  page := some ⟨some 1, some (Cursor.keyset [("mass", v)]).encode⟩

variable (masses : List Value) (v : Value)

theorem isList_above : (grains masses).IsList (above v) grain "grains" where
  reads := rfl
  found := rfl
  record := rfl
  field := rfl
  stored := rfl
  many := rfl
  flat := by rintro ts ⟨⟩

theorem blind_above : (grains masses).Blind grain (above v) .null where
  rules := by simp [grain]
  conditions := by simp [grain, mass, Shelf.title]
  fieldRules := by simp [grain, mass, Shelf.title, permissionTable, grains]
  sources := by simp [grain, mass, FieldSource.Blind]
  permission := by
    intro access allowed predicate hpredicate
    cases allowed
    cases hpredicate
  filter := by rintro predicate ⟨⟩

theorem sortsBy_mass : grain.SortsBy "mass" "mass" where
  stored := ⟨mass, rfl, rfl⟩
  named := by decide
  undotted := by decide
  ascending := by decide
  unquoted := by decide
  filled := by decide
  unscoped := by decide
  bare := by decide

theorem matching_above : (grains masses).matching grain ⟨above v, .null⟩ =
    masses.map fun m => [("mass", m)] := by
  have open_ : can grain "get.resource" ⟨above v, .null⟩ none = .ok .all := rfl
  unfold Engine.matching
  rw [open_]
  exact List.filter_eq_self.mpr fun record _ => decide_eq_true (by simp [above, Access.predicate?])

theorem held_mass (m : Value) : Record.held [("mass", m)] "mass" = m := rfl

/-- Whole masses are read back from cursors as they are. -/
theorem faithful_above (ns : List UInt64) : ∀ record ∈ (grains (ns.map Value.uint)).matching grain
      ⟨above v, .null⟩, record.exceeds "mass" v → (record.held "mass").Faithful "mass"
        ((grains (ns.map Value.uint)).matching grain ⟨above v, .null⟩) := by
  rw [matching_above]
  simp only [List.forall_mem_map, held_mass]
  exact fun n _ _ => Value.faithful_of_reread (Value.reread_uint n)

end Lab

/-- Of three grains, two are heavier than the first. -/
theorem Engine.walk_keyset_three :
    let e := Lab.grains ([3, 1, 2].map Value.uint)
    ∃ rows pages, rows.length = 2 ∧ Visits "mass" rows pages ∧
      ∀ others, e.Walk .null (Lab.above (.uint 1)) others ↔ others = pages := by
  intro e
  have decoded : Cursor.decode (Cursor.keyset [("mass", .uint 1)]).encode =
      .ok (.keyset [("mass", .uint 1)]) := Cursor.decode_keyset rfl (Value.reread_uint 1)
  have ends : (e.execute { Lab.above (.uint 1) with page := some ⟨some 3, none⟩ }
      .null).outcome.toOption.isSome := by decide +kernel
  obtain ⟨whole, answered⟩ := Except.isSome_toOption.mp ends
  have matching := Lab.matching_above ([3, 1, 2].map Value.uint) (.uint 1)
  obtain ⟨fields, matched, pages, -, perm, -, -, walk, visits⟩ := Engine.walk_keyset e
    (Lab.above (.uint 1)) .null (Lab.isList_above _ _) (Lab.blind_above _ _) Lab.sortsBy_mass rfl rfl
    (by decide) rfl (v := .uint 1) rfl decoded (by rw [matching]; decide) answered
    (by rw [matching]; decide +kernel) (by rw [matching]; decide +kernel) (Lab.faithful_above _ _)
  refine ⟨_, pages, ?_, visits, walk⟩
  rw [List.length_map, (perm.filter _).length_eq, matching]
  decide +kernel

/-- Of two grains that are heavier than nothing, the second is lost: the mass of the first is read back
from its cursor as the mass of the second. -/
theorem Engine.walk_keyset_rounded :
    let mass : Value := .num (.double ⟨false, 5067375051682638255, by decide⟩)
    let e := Lab.grains [mass, .num (.double ⟨false, 5067375051682638256, by decide⟩)]
    (∀ record ∈ e.matching Lab.grain ⟨Lab.above (.uint 0), .null⟩, record.exceeds "mass" (.uint 0)) ∧
      ∃ first second, e.Walk .null (Lab.above (.uint 0)) [first, second] ∧
        first.data.arr?.map List.length = some 1 ∧ second.data.arr?.map List.length = some 0 := by
  intro mass e
  have heavy : ∀ record ∈ e.matching Lab.grain ⟨Lab.above (.uint 0), .null⟩,
      record.exceeds "mass" (.uint 0) := by
    rw [Lab.matching_above]
    decide +kernel
  have starts : ((e.execute (Lab.above (.uint 0)) .null).outcome.toOption.map fun response =>
      (response.data.arr?.map List.length, (response.page.get? "data").map PageMeta.after)) =
      some (some 1, some (Cursor.keyset [("mass", mass)]).encode) := by decide +kernel
  have ends : ((e.execute (Lab.above mass) .null).outcome.toOption.map fun response =>
      (response.data.arr?.map List.length, (response.page.get? "data").map PageMeta.after)) =
      some (some 0, none) := by decide +kernel
  obtain ⟨first, hfirst, hstart⟩ := Option.map_eq_some_iff.mp starts
  obtain ⟨second, hsecond, hend⟩ := Option.map_eq_some_iff.mp ends
  obtain ⟨one, goesOn⟩ := Prod.mk.inj hstart
  obtain ⟨zero, stops⟩ := Prod.mk.inj hend
  obtain ⟨more, hmore, htoken⟩ := Option.map_eq_some_iff.mp goesOn
  have next : (Lab.above (.uint 0)).continued more.after = Lab.above mass := by
    rw [Query.continued_eq, htoken]
    rfl
  refine ⟨heavy, first, second, .next (Except.toOption_eq_some.mp hfirst) hmore ?_, one, zero⟩
  rw [next]
  exact .last (Except.toOption_eq_some.mp hsecond) (Option.map_eq_none_iff.mp stops)

end RecordGraph
