import RecordGraph.Proofs.Run.Paging
import RecordGraph.Proofs.Run.Refusals

/-!
The options of a query. What they report is what the requester is then granted: an action that they deny
is refused, and one that they allow is not, save where a field that is read opens its relation.
-/
namespace RecordGraph

/-- The query with another action. -/
def Query.doing (q : Query) (a : Action) : Query := { q with action := some a }

/-! Queries without nested states -/

theorem Query.follow_flat {q : Query} (flat : q.Flat) {names : List String} {located : Located}
    (h : q.follow names = some located) : located = .state q ∨ ∃ taken, located = .flag taken := by
  cases names with
  | nil =>
    cases h
    exact .inl rfl
  | cons name names =>
    unfold Query.follow at h
    split at h
    · cases h
    · rename_i state hentry
      unfold Query.entry? at hentry
      cases htake : q.take with
      | none =>
        rw [htake] at hentry
        cases hentry
      | some ts =>
        rw [htake] at hentry
        exact absurd (Entries.mem_of_get? hentry) (flat ts htake _ state)
    · split at h
      · cases h
        exact .inr ⟨_, rfl⟩
      · cases h

/-- What is located in a query without nested states takes no nested state. -/
theorem Query.locate_flat {q : Query} (flat : q.Flat) {level : Level} {located : Located}
    (h : q.locate level = .ok located) : located = .state q ∨ ∃ taken, located = .flag taken := by
  unfold Query.locate Query.at? at h
  split at h
  · rename_i hfollow
    cases h
    exact Query.follow_flat flat hfollow
  · cases h

/-- Without nested states, every level but that of a targeted field takes what the query does, or
nothing. -/
theorem Query.take?_scope_flat {q : Query} (flat : q.Flat) {level : Level} {scope : Scope}
    (h : q.scope level = .ok scope) (below : ¬(q.field.isSome && level.isEmpty) = true) :
    scope.take? = q.take ∨ scope.take? = none := by
  unfold Query.scope at h
  cases hfield : q.field with
  | none =>
    rw [hfield] at h
    obtain ⟨located, hlocated, rfl⟩ := Except.map_eq_ok.mp h
    rcases Query.locate_flat flat hlocated with rfl | ⟨taken, rfl⟩
    · exact .inl rfl
    · exact .inr rfl
  | some name =>
    rw [hfield] at h below
    cases level with
    | nil => exact absurd rfl below
    | cons first rest =>
      obtain ⟨located, hlocated, rfl⟩ := Except.map_eq_ok.mp h
      rcases Query.locate_flat flat hlocated with rfl | ⟨taken, rfl⟩
      · exact .inl rfl
      · exact .inr rfl

namespace Engine
variable {e : Engine} {ctx : Context} {r : Resource} {f : Field}

/-- Without nested states, only a field that the query targets is rendered deeply. -/
theorem isDeep_of_flat (flat : ctx.query.Flat) {scope : Scope} {level : Level}
    (hscope : ctx.query.scope level = .ok scope) (hdeep : isDeep ctx scope f level) :
    ctx.query.field.isSome ∧ level = [] ∧ ctx.query.take.isSome := by
  unfold isDeep at hdeep
  by_cases hroot : (ctx.query.field.isSome && level.isEmpty) = true
  · rw [if_pos hroot] at hdeep
    rw [Bool.and_eq_true, List.isEmpty_iff] at hroot
    exact ⟨hroot.1, hroot.2, hdeep⟩
  · rw [if_neg hroot] at hdeep
    have hnested (state : Query) :
        (scope.take?.getD []).lookup f.name ≠ some (.nested state) := by
      rcases Query.take?_scope_flat flat hscope hroot with htake | htake <;> rw [htake]
      · exact lookup_flat flat f.name state
      · simp
    split at hdeep
    · exact absurd ‹_› (hnested _)
    · cases hdeep

/-! Reading a resource, a record or a field -/

theorem admitted_findResource (e : Engine) (q : Query) : Admitted (e.findResource q) := by
  unfold findResource
  split
  · exact .error rfl
  · exact .error rfl
  · refine .bind ?_ fun space _ => ?_
    · unfold findSpace
      split
      · exact .ok _
      · exact .error rfl
    · split
      · exact .ok _
      · exact .error rfl

theorem Window.admitted_ofPage (page : Option Page) (size : UInt64) :
    Admitted (Window.ofPage page size) := by
  unfold Window.ofPage
  dsimp only
  cases page.bind Page.after with
  | none => exact .ok _
  | some token =>
    refine .bind (.map ?_) fun _ _ => .ok _
    unfold Cursor.decode
    split
    · exact .ok _
    · exact .error rfl

theorem admitted_plan (e : Engine) (ctx : Context) (r : Resource) (endpoint : Endpoint)
    (access : Access) (source : String) : Admitted (e.plan ctx r endpoint access source) := by
  refine .bind (ctx.query.admitted_scope _) fun scope _ => ?_
  refine .bind (Window.admitted_ofPage _ _) fun window _ => ?_
  refine .bind ?_ fun _ _ => .bind (e.admitted_prepareSort r _) fun _ _ => .ok _
  refine .bind (e.admitted_prepareAll _ _ _ _) fun _ _ => .bind ?_ fun _ _ => .ok _
  unfold keysetStorage
  split
  · exact .map (e.server.admitted_toStorage r _)
  · exact .ok _

theorem admitted_turnPage (e : Engine) (r : Resource) (window : Window) (path : Option String)
    (fetched : Fetched) : Admitted (e.turnPage r window path fetched) := by
  unfold turnPage
  split
  · exact .ok _
  · refine .map ?_
    unfold keysetValues
    split
    · exact .map (.mapM fun _ _ => .map (e.server.admitted_storageSegments r _))
    · exact .ok _

theorem admitted_theRecord (q : Query) (r : Resource) (endpoint : Endpoint) (fetched : Fetched) :
    Admitted (theRecord q r endpoint fetched) := by
  unfold theRecord
  split
  · exact .ok _
  · split <;> exact .error rfl

theorem admitted_showing (e : Engine) (ctx : Context) (endpoint : Endpoint) (path : Option String)
    (o : Opening) (p : Plan) (fetched : Fetched) : Admitted (e.showing ctx endpoint path o p fetched) := by
  unfold showing
  split
  · exact .map (admitted_turnPage _ _ _ _ _)
  · exact .map (admitted_theRecord _ _ _ _)

/-- Loading never refuses. -/
theorem admitted_load (e : Engine) (ctx : Context) (endpoint : Endpoint) (path : Option String)
    (o : Opening) : Admitted (e.load ctx endpoint path o).outcome := by
  unfold load
  split
  · exact .outcome_bind (admitted_plan e _ _ _ _ _) fun p _ =>
      .outcome_bind (Store.admitted_answer _) fun fetched _ => admitted_showing e _ _ _ _ _ _
  · split
    · exact .ok _
    · exact .error rfl

/-- A relation that a selected field of a resource opens at the root, or that is opened below it, and
that is closed. -/
def ShutFrom (e : Engine) (ctx : Context) (r : Resource) (error : QueryError) : Prop :=
  ∃ fields shown records, takeFields r "get" Level.root ctx e.settings = .ok fields ∧
    (∀ f ∈ shown, f ∈ fields) ∧ e.ShutBelow ctx ⟨none, r, shown, records, Level.root⟩ error

/-- A read that is open, of fields that may be selected, is refused only where a relation is closed. -/
theorem refusesOnly_getResource {endpoint : Endpoint} {path : Option String} {access : Access}
    (hr : e.findResource ctx.query = .ok r)
    (haccess : can r ("get." ++ endpoint.name) ctx none = .ok access)
    (hopen : access.isDenied = false)
    (hfields : Admitted (takeFields r "get" Level.root ctx e.settings)) :
    RefusesOnly (e.ShutFrom ctx r) (e.getResource ctx endpoint path).outcome := by
  have opening : Admitted (e.opening ctx endpoint) := by
    rw [Engine.opening, hr, Except.ok_bind, haccess, Except.ok_bind, hopen]
    exact hfields.map
  rw [getResource_eq]
  refine .outcome_bind (.of_admitted opening) fun o opened => ?_
  refine .outcome_bind (.of_admitted (admitted_load e _ _ _ _)) fun l loads => ?_
  obtain ⟨found, -, -, taken⟩ := opening_eq_ok.mp opened
  obtain rfl : r = o.resource := Except.ok.inj (hr.symm.trans found)
  refine .outcome_bind (fun error h refuses => ?_) fun _ _ => .ok _
  exact ⟨o.fields, l.fields, l.records, taken, fun f hf => (load_eq_ok.mp loads).sublist.subset hf,
    refusesOnly_render _ _ error h refuses⟩

theorem takeFields_target {name : String} (field : ctx.query.field = some name)
    (found : r.field? name = some f) {settings : Settings}
    (allowed : canTakeField f "get" ctx settings = .ok true) :
    takeFields r "get" Level.root ctx settings = .ok [f] := by
  unfold takeFields targetField
  rw [field]
  simp only [Level.root, found, allowed, Except.monad_bind, Except.ok_bind, if_true]
  rfl

/-! What the options report -/

/-- What the options say of an action. -/
def reported (response : Response) (a : Action) : Option Value :=
  (response.data.get? "actions").bind fun actions => actions.get? a.name

theorem options_eq_ok {field : Option Field} {response : Response}
    (target : e.optionsTarget ctx.query = .ok (some (r, field)))
    (h : e.options ctx = .ok response) (a : Action) :
    ∃ allowed, e.isAllowed ctx r field a = .ok allowed ∧
      reported response a = some (.bool (isSupported a && allowed)) := by
  obtain ⟨_, htarget, h⟩ := Except.monad_bind_eq_ok.mp h
  cases target.symm.trans htarget
  obtain ⟨actions, hactions, h⟩ := Except.monad_bind_eq_ok.mp h
  cases h
  have each := Except.mapM_eq_ok.mp hactions
  have named : List.Forall₂ (fun (a : Action) entry => entry.1 = a.name) Action.all actions := by
    refine each.imp fun action entry hstep => ?_
    obtain ⟨_, -, hstep⟩ := Except.monad_bind_eq_ok.mp hstep
    cases hstep
    rfl
  have keys : actions.map Prod.fst = Action.all.map Action.name := by
    rw [← List.forall₂_eq_eq_eq, List.forall₂_map_left_iff, List.forall₂_map_right_iff]
    exact named.flip
  have nodup : (actions.map Prod.fst).Nodup := by
    rw [keys]
    decide
  obtain ⟨entry, hentry, hstep⟩ := each.flip.exists_left a.mem_all
  obtain ⟨allowed, hallowed, hstep⟩ := Except.monad_bind_eq_ok.mp hstep
  cases hstep
  exact ⟨allowed, hallowed, Entries.get?_ofList nodup hentry⟩

/-- An action is allowed where its resource is not closed and its field, if there is one, may be used. -/
theorem isAllowed_eq_ok {field : Option Field} {a : Action} {allowed : Bool}
    (h : e.isAllowed ctx r field a = .ok allowed) :
    ∃ access, can r (a.name ++ "." ++ ctx.query.endpoint.name) ctx none = .ok access ∧
      ((access.isDenied = true ∧ allowed = false) ∨
        (access.isDenied = false ∧ ∀ f, field = some f →
          canTakeField f a.name ctx e.settings = .ok allowed) ∧ (field = none → allowed = true)) := by
  obtain ⟨access, haccess, h⟩ := Except.monad_bind_eq_ok.mp h
  refine ⟨access, haccess, ?_⟩
  cases hopen : access.isDenied with
  | true =>
    rw [hopen] at h
    cases h
    exact .inl ⟨rfl, rfl⟩
  | false =>
    rw [hopen] at h
    cases field with
    | none =>
      cases h
      exact .inr ⟨⟨rfl, by simp⟩, fun _ => rfl⟩
    | some f =>
      refine .inr ⟨⟨rfl, ?_⟩, by simp⟩
      rintro _ ⟨⟩
      exact h

/-! Truthfulness -/

/-- Reading a field through its relation is refused: the query takes something of the records that the
field links to, and their resource is closed. -/
def OpensShut (e : Engine) (q : Query) (request : Value) (error : QueryError) : Prop :=
  q.take.isSome ∧ ∃ r name f, e.findResource q = .ok r ∧ q.field = some name ∧
    r.field? name = some f ∧ e.Shut ⟨q.doing .get, request⟩ r f error

/-- A query without nested states opens at most the relation of the field it targets. -/
theorem opensShut_of_shutFrom {q : Query} {request : Value} {error : QueryError} (flat : q.Flat)
    (hr : e.findResource q = .ok r) (h : e.ShutFrom ⟨q.doing .get, request⟩ r error) :
    e.OpensShut q request error := by
  obtain ⟨fields, shown, records, taken, sub, b, f, reached, deep, shut⟩ := h
  obtain ⟨hf, -, scope, hscope, hdeep⟩ := deep
  have flat : (q.doing .get).Flat := flat
  obtain ⟨field, hlevel, take⟩ := isDeep_of_flat flat hscope hdeep
  rcases Relation.ReflTransGen.cases_tail reached with rfl | ⟨parent, -, g, -, -, -, -, -, hbelow⟩
  · obtain ⟨name, hname⟩ := Option.isSome_iff_exists.mp field
    have target : takeFields r "get" Level.root ⟨q.doing .get, request⟩ e.settings =
        (targetField r name "get" ⟨q.doing .get, request⟩ e.settings).map ([·]) := by
      unfold takeFields
      rw [hname]
      rfl
    obtain ⟨g, hg, rfl⟩ := Except.map_eq_ok.mp (target.symm.trans taken)
    obtain rfl := List.mem_singleton.mp (sub f hf)
    have found : r.field? name = some f := by
      unfold targetField at hg
      cases hfound : r.field? name with
      | none =>
        rw [hfound] at hg
        cases hg
      | some g =>
        rw [hfound] at hg
        obtain ⟨allowed, -, hg⟩ := Except.monad_bind_eq_ok.mp hg
        cases allowed <;> cases hg
        rfl
    exact ⟨take, r, name, f, hr, hname, found, shut⟩
  · exact absurd (hbelow.symm.trans hlevel) (enter_ne_nil _ _)

/-- The resource that a query targets, with the field it targets if there is one. -/
structure Targets (e : Engine) (q : Query) (r : Resource) (field : Option Field) : Prop where
  endpoint : q.endpoint = .resource ∨ q.endpoint = .record ∨ q.endpoint = .field
  found : e.findResource q = .ok r
  field : q.field = none ∧ field = none ∨
    ∃ name f, q.field = some name ∧ r.field? name = some f ∧ field = some f

theorem targets_of_optionsTarget {q : Query} {target : Option (Resource × Option Field)}
    (endpoint : q.endpoint = .resource ∨ q.endpoint = .record ∨ q.endpoint = .field)
    (h : e.optionsTarget q = .ok target) :
    ∃ r field, target = some (r, field) ∧ e.Targets q r field := by
  unfold optionsTarget at h
  obtain hq | hq | hq := endpoint <;> (
    simp only [hq] at h
    obtain ⟨r, hr, h⟩ := Except.monad_bind_eq_ok.mp h
    cases hfield : q.field with
    | none =>
      rw [hfield] at h
      cases h
      exact ⟨r, none, rfl, by simp [hq], hr, .inl ⟨hfield, rfl⟩⟩
    | some name =>
      rw [hfield] at h
      obtain ⟨f, hf, h⟩ := Except.monad_bind_eq_ok.mp h
      cases h
      refine ⟨r, some f, rfl, by simp [hq], hr, .inr ⟨name, f, hfield, ?_, rfl⟩⟩
      unfold findField at hf
      split at hf
      · cases hf
        assumption
      · cases hf)

theorem execute_doing_get {q : Query} {field : Option Field} (target : e.Targets q r field)
    (request : Value) : e.execute (q.doing .get) request =
      e.getResource ⟨q.doing .get, request⟩ q.endpoint none := by
  have reads : e.execute (q.doing .get) request = e.get ⟨q.doing .get, request⟩ := rfl
  have same : (q.doing .get).endpoint = q.endpoint := rfl
  rw [reads, get]
  dsimp only
  rw [same]
  obtain hq | hq | hq := target.endpoint <;> rw [hq]

section get
variable {q : Query} {request : Value} {field : Option Field} (target : e.Targets q r field)
  (blind : r.RulesBlind e.settings request)
include target blind

/-- A read that the options allow is refused only below a relation that is closed. -/
theorem refusesOnly_get (flat : q.Flat)
    (h : e.isAllowed ⟨q.doing .options, request⟩ r field .get = .ok true) :
    RefusesOnly (e.OpensShut q request) (e.execute (q.doing .get) request).outcome := by
  obtain ⟨access, haccess, ⟨-, hfalse⟩ | ⟨⟨hopen, hallowed⟩, -⟩⟩ := isAllowed_eq_ok h
  · cases hfalse
  rw [execute_doing_get target]
  have hcan : can r ("get." ++ q.endpoint.name) ⟨q.doing .get, request⟩ none = .ok access :=
    (indifferent_can blind _ (q.doing .get) (q.doing .options)).trans haccess
  have hfields : Admitted (takeFields r "get" Level.root ⟨q.doing .get, request⟩ e.settings) := by
    rcases target.field with ⟨hnone, -⟩ | ⟨name, f, hname, hf, rfl⟩
    · exact admitted_takeFields _ _ (.inl hnone)
    · have hmem : f ∈ r.fields := List.mem_of_find?_eq_some hf
      rw [takeFields_target hname hf ((indifferent_canTakeField blind hmem "get" (q.doing .get)
        (q.doing .options)).trans (hallowed f rfl))]
      exact .ok _
  intro error herror refuses
  exact opensShut_of_shutFrom flat target.found
    (refusesOnly_getResource target.found hcan hopen hfields error herror refuses)

/-- A read that the options deny is refused. -/
theorem get_refused (h : e.isAllowed ⟨q.doing .options, request⟩ r field .get = .ok false) :
    ∃ error, (e.execute (q.doing .get) request).outcome = .error error ∧ error.refuses := by
  obtain ⟨access, haccess, hcases⟩ := isAllowed_eq_ok h
  have hcan : can r ("get." ++ q.endpoint.name) ⟨q.doing .get, request⟩ none = .ok access :=
    (indifferent_can blind _ (q.doing .get) (q.doing .options)).trans haccess
  have hfound : e.findResource (q.doing .get) = .ok r := target.found
  suffices refused : ∃ error,
      e.opening ⟨q.doing .get, request⟩ q.endpoint = .error error ∧ error.refuses by
    obtain ⟨error, h, refuses⟩ := refused
    exact ⟨error, by rw [execute_doing_get target, getResource_error h], refuses⟩
  rw [opening, hfound, Except.ok_bind, hcan, Except.ok_bind]
  obtain ⟨hdenied, -⟩ | ⟨⟨hopen, hallowed⟩, hnone⟩ := hcases
  · rw [if_pos hdenied]
    exact ⟨_, rfl, rfl⟩
  · rw [if_neg (by simp [hopen])]
    rcases target.field with ⟨-, hfield⟩ | ⟨name, f, hname, hf, rfl⟩
    · cases hnone hfield
    · have hmem : f ∈ r.fields := List.mem_of_find?_eq_some hf
      have hdenied : canTakeField f "get" ⟨q.doing .get, request⟩ e.settings = .ok false :=
        (indifferent_canTakeField blind hmem "get" (q.doing .get) (q.doing .options)).trans
          (hallowed f rfl)
      have hfields : takeFields r "get" Level.root ⟨q.doing .get, request⟩ e.settings =
          .error (.methodNotAllowed "get" r.id name) := by
        have hfield : (q.doing .get).field = some name := hname
        unfold takeFields targetField
        simp only [hfield, Level.root, hf, hdenied]
        rfl
      rw [hfields]
      exact ⟨_, rfl, rfl⟩

end get

theorem admitted_explain (e : Engine) {q : Query} (endpoint : q.endpoint = .resource ∨
    q.endpoint = .record ∨ q.endpoint = .field) : Admitted (e.explain q) := by
  unfold explain
  obtain hq | hq | hq := endpoint <;> simp only [hq]
  · exact .map (admitted_findResource e q)
  · exact .map (admitted_findResource e q)
  · refine .bind (admitted_findResource e q) fun r _ => .bind ?_ fun _ _ => .ok _
    unfold findField
    split
    · exact .ok _
    · exact .error rfl

/-- What the options report of an action is what the requester is granted. An action that they allow is
not refused, save a read that opens the relation of its field to a closed resource; one that they deny
is refused, where descriptions and the options themselves are left out of account. -/
theorem options_truthful (e : Engine) (q : Query) (request : Value)
    (endpoint : q.endpoint = .resource ∨ q.endpoint = .record ∨ q.endpoint = .field)
    (flat : q.Flat) (blind : ∀ r, e.findResource q = .ok r → r.RulesBlind e.settings request)
    {response : Response} (h : (e.execute (q.doing .options) request).outcome = .ok response)
    (a : Action) :
    ∃ allowed, reported response a = some (.bool allowed) ∧
      (allowed = true → ∀ error, (e.execute (q.doing a) request).outcome = .error error →
        error.refuses → a = .get ∧ e.OpensShut q request error) ∧
      (allowed = false → a ≠ .explain → a ≠ .options →
        ∃ error, (e.execute (q.doing a) request).outcome = .error error ∧ error.refuses) := by
  have hoptions : e.options ⟨q.doing .options, request⟩ = .ok response := h
  obtain ⟨target, htarget, -⟩ := Except.monad_bind_eq_ok.mp hoptions
  obtain ⟨r, field, rfl, targets⟩ := targets_of_optionsTarget (q := q.doing .options) endpoint htarget
  have targets : e.Targets q r field := ⟨endpoint, targets.found, targets.field⟩
  have blind := blind r targets.found
  obtain ⟨allowed, hallowed, hreported⟩ := options_eq_ok htarget hoptions a
  refine ⟨_, hreported, ?_⟩
  cases a with
  | get =>
    rw [isSupported, Bool.true_and]
    refine ⟨?_, ?_⟩
    · rintro rfl error herror refuses
      exact ⟨rfl, refusesOnly_get targets blind flat hallowed error herror refuses⟩
    · rintro rfl - -
      exact get_refused targets blind hallowed
  | explain =>
    refine ⟨fun _ error herror refuses => ?_, fun _ hne => absurd rfl hne⟩
    exact (admitted_explain e (q := q.doing .explain) endpoint error herror refuses).elim
  | options =>
    refine ⟨fun _ error herror _ => ?_, fun _ _ hne => absurd rfl hne⟩
    cases h.symm.trans herror
  | add | set | edit | delete =>
    exact ⟨fun h => (by cases h), fun _ _ _ => ⟨_, rfl, rfl⟩⟩

end Engine

/-- A list of books may be read, and reading it is not refused. -/
theorem Engine.options_truthful_books :
    ∃ response, (Shelf.library.execute (Shelf.paged.doing .options) Shelf.asked.request).outcome =
        .ok response ∧
      reported response .get = some (.bool true) ∧
      ∀ error, (Shelf.library.execute (Shelf.paged.doing .get) Shelf.asked.request).outcome =
        .error error → error.refuses = false := by
  have reports : (Shelf.library.execute (Shelf.paged.doing .options)
      Shelf.asked.request).outcome.toOption.bind (fun response =>
        (reported response .get).bind Value.bool?) = some true := by decide +kernel
  obtain ⟨response, hresponse, hget⟩ := Option.bind_eq_some_iff.mp reports
  have h := Except.toOption_eq_some.mp hresponse
  have blind (r : Resource) (hr : Shelf.library.findResource Shelf.paged = .ok r) :
      r.RulesBlind Shelf.library.settings Shelf.asked.request := by
    cases hr
    exact Shelf.blind_paged.toBlind.rulesBlind
  have flat : Shelf.paged.Flat := by rintro ts ⟨⟩
  obtain ⟨allowed, hreported, granted, -⟩ := options_truthful Shelf.library Shelf.paged
    Shelf.asked.request (.inl rfl) flat blind h .get
  rw [hreported] at hget
  obtain rfl : allowed = true := by simpa [Value.bool?] using hget
  refine ⟨response, h, hreported, fun error herror => ?_⟩
  cases refuses : error.refuses with
  | false => rfl
  | true =>
    obtain ⟨-, take, -⟩ := granted rfl error herror refuses
    cases take

namespace Shelf

/-- Books that are closed to those who come from other books. -/
def closedBooks : Resource := { books with can := some [("get.prefetch", .bool false)] }

def closed : Engine :=
  { library with server := { spaces := [("library", ⟨"library", [("book", closedBooks)]⟩)] } }

/-- The title of the sequel of a book. -/
def sequelTitle : Query where
  space := some "library"
  resource := some "book"
  record := some "1"
  field := some "sequel"
  take := some [("title", .flag true)]

end Shelf

/-- A field may be read as the options tell, and reading it with something taken of the records it links
to is refused, as these are closed. -/
theorem Engine.options_prefetch :
    let q := Shelf.sequelTitle
    q.endpoint = .field ∧ q.Flat ∧
      (∀ r, Shelf.closed.findResource q = .ok r → r.RulesBlind Shelf.closed.settings .null) ∧
      (∃ response, (Shelf.closed.execute (q.doing .options) .null).outcome = .ok response ∧
        reported response .get = some (.bool true)) ∧
      ∃ error, (Shelf.closed.execute (q.doing .get) .null).outcome = .error error ∧
        error.refuses := by
  intro q
  refine ⟨rfl, ?_, ?_, ?_, ?_⟩
  · rintro ts ⟨⟩
    simp
  · rintro r hr
    obtain rfl : Shelf.closedBooks = r := by
      cases hr
      rfl
    refine ⟨?_, ?_, ?_⟩
    · simp only [Shelf.closedBooks, Option.getD_some, List.mem_singleton, forall_eq]
      intro _ _
      rfl
    · simp [Shelf.closedBooks, Shelf.books, Shelf.book, Shelf.sequel, Shelf.title]
    · simp [Shelf.closedBooks, Shelf.books, Shelf.book, Shelf.sequel, Shelf.title, permissionTable,
        Shelf.closed, Shelf.library]
  · have reports : (Shelf.closed.execute (q.doing .options) .null).outcome.toOption.bind
        (fun response => (reported response .get).bind Value.bool?) = some true := by decide +kernel
    obtain ⟨response, hresponse, hget⟩ := Option.bind_eq_some_iff.mp reports
    obtain ⟨v, hv, hbool⟩ := Option.bind_eq_some_iff.mp hget
    refine ⟨response, Except.toOption_eq_some.mp hresponse, ?_⟩
    cases v <;> cases hbool
    exact hv
  · have refused : ((Shelf.closed.execute (q.doing .get) .null).outcome.map fun _ => ()).mapError
        QueryError.refuses = .error true := by decide +kernel
    cases h : (Shelf.closed.execute (q.doing .get) .null).outcome with
    | ok response =>
      rw [h] at refused
      cases refused
    | error e =>
      rw [h] at refused
      exact ⟨e, rfl, Except.error.inj refused⟩

end RecordGraph
