import RecordGraph.Proofs.Run.Calls
import RecordGraph.Proofs.Run.Options

/-!
Permission before data. Each level of a query is checked before it is read: whatever the store is asked
for is the root of a resource, or the target of a relation, that has been found open to the requester,
and a level that is found closed is never asked for. The levels are taken one after the other, so that a
query may be denied below what it has read.
-/
namespace RecordGraph

/-- Errors that deny permission. -/
def QueryError.denies : QueryError → Bool
  | .forbidden _ _ | .methodNotAllowed _ _ _ => true
  | _ => false

theorem QueryError.refuses_of_denies {error : QueryError} (h : error.denies) : error.refuses := by
  cases error with
  | forbidden _ _ | methodNotAllowed _ _ _ => rfl
  | query _ | expression _ | notFound _ | misconfigured _ | serialization _ | execution _ => cases h

/-! Calls of a run -/

namespace Run
variable {α β γ δ : Type} {P : Call → Prop} {run : Run α} {other : Run β}

theorem calls_bind_ok {a : α} (h : run.outcome = .ok a) (next : α → Run γ) :
    (run >>= next).calls = run.calls ++ (next a).calls := by
  obtain ⟨calls, handed, outcome⟩ := run
  obtain rfl : outcome = .ok a := h
  rfl

theorem calls_bind_error {error : QueryError} (h : run.outcome = .error error) (next : α → Run γ) :
    (run >>= next).calls = run.calls := by
  obtain ⟨calls, handed, outcome⟩ := run
  obtain rfl : outcome = .error error := h
  rfl

theorem outcome_bind_error {error : QueryError} (h : run.outcome = .error error) (next : α → Run γ) :
    (run >>= next).outcome = .error error := by
  obtain ⟨calls, handed, outcome⟩ := run
  obtain rfl : outcome = .error error := h
  rfl

theorem calls_map (run : Run α) (f : α → β) : (run >>= fun a => pure (f a)).calls = run.calls := by
  cases h : run.outcome with
  | error error => exact calls_bind_error h _
  | ok a =>
    rw [calls_bind_ok h]
    exact List.append_nil _

/-- A run that calls the store in certain ways only, and refuses in certain ways only. -/
structure Guarded (P : Call → Prop) (ways : QueryError → Prop) (run : Run α) : Prop where
  calls : ∀ call ∈ run.calls, P call
  refuses : RefusesOnly ways run.outcome

namespace Guarded
variable {ways : QueryError → Prop}

theorem ofExcept {x : Except QueryError α} (h : RefusesOnly ways x) : Guarded P ways (Run.ofExcept x) :=
  ⟨List.forall_mem_nil P, h⟩

theorem bind {next : α → Run γ} (h : Guarded P ways run)
    (hnext : ∀ a, run.outcome = .ok a → Guarded P ways (next a)) : Guarded P ways (run >>= next) := by
  refine ⟨?_, .outcome_bind h.refuses fun a ha => (hnext a ha).refuses⟩
  cases hrun : run.outcome with
  | error error =>
    rw [calls_bind_error hrun]
    exact h.calls
  | ok a =>
    rw [calls_bind_ok hrun]
    exact List.forall_mem_append.mpr ⟨h.calls, (hnext a hrun).calls⟩

/-- What never refuses and makes no call may run before. -/
theorem after {x : Except QueryError α} {next : α → Run γ} (hx : Admitted x)
    (hnext : ∀ a, x = .ok a → Guarded P ways (next a)) : Guarded P ways (Run.ofExcept x >>= next) :=
  (ofExcept (.of_admitted hx)).bind hnext

theorem map (h : Guarded P ways run) (f : α → β) : Guarded P ways (run >>= fun a => pure (f a)) :=
  h.bind fun _ _ => ofExcept (.ok _)

theorem each {f : α → Run β} {xs : List α} (h : ∀ x ∈ xs, Guarded P ways (f x)) :
    Guarded P ways (Run.each f xs) := by
  induction xs with
  | nil => exact ofExcept (.ok _)
  | cons x xs ih =>
    rw [List.forall_mem_cons] at h
    exact bind h.1 fun _ _ => (ih h.2).map _

end Guarded

/-- Items run up to the first that fails; those before have run through. -/
theorem each_eq_error {f : α → Run β} {xs : List α} {error : QueryError}
    (h : (each f xs).outcome = .error error) :
    ∃ before x after, xs = before ++ x :: after ∧ (∀ y ∈ before, ∃ b, (f y).outcome = .ok b) ∧
      (f x).outcome = .error error ∧
      (each f xs).calls = before.flatMap (fun y => (f y).calls) ++ (f x).calls := by
  induction xs with
  | nil => cases h
  | cons x xs ih =>
    have step : each f (x :: xs) = f x >>= fun y => each f xs >>= fun ys => pure (y :: ys) := rfl
    rw [step] at h ⊢
    cases hx : (f x).outcome with
    | error fault =>
      rw [outcome_bind_error hx] at h
      cases h
      exact ⟨[], x, xs, rfl, List.forall_mem_nil _, hx, calls_bind_error hx _⟩
    | ok y =>
      rw [outcome_bind_ok hx, outcome_map] at h
      have hxs : (each f xs).outcome = .error error := by
        cases hxs : (each f xs).outcome with
        | error fault =>
          rw [hxs] at h
          exact h
        | ok ys =>
          rw [hxs] at h
          cases h
      obtain ⟨before, failed, rest, rfl, ran, hfailed, hcalls⟩ := ih hxs
      refine ⟨x :: before, failed, rest, rfl, List.forall_mem_cons.mpr ⟨⟨y, hx⟩, ran⟩, hfailed, ?_⟩
      rw [calls_bind_ok hx, calls_map, hcalls, List.flatMap_cons, List.append_assoc]

/-- Runs that make the same calls, and fail alike if they do. -/
structure Alike (run : Run α) (other : Run β) : Prop where
  calls : run.calls = other.calls
  ends : run.outcome.map (fun _ => ()) = other.outcome.map fun _ => ()

namespace Alike

theorem refl (run : Run α) : Alike run run := ⟨rfl, rfl⟩

theorem bind {next : α → Run γ} {next' : β → Run δ} (h : Alike run other)
    (hnext : ∀ a b, run.outcome = .ok a → other.outcome = .ok b → Alike (next a) (next' b)) :
    Alike (run >>= next) (other >>= next') := by
  obtain ⟨calls, handed, outcome⟩ := run
  obtain ⟨calls', handed', outcome'⟩ := other
  obtain ⟨rfl, ends⟩ := h
  cases outcome with
  | error error =>
    cases outcome' with
    | error error' =>
      cases ends
      exact ⟨rfl, rfl⟩
    | ok b => cases ends
  | ok a =>
    cases outcome' with
    | error error' => cases ends
    | ok b =>
      obtain ⟨same, alike⟩ := hnext a b rfl rfl
      exact ⟨congrArg (calls ++ ·) same, alike⟩

/-- What both do before is the same. -/
theorem after {next next' : α → Run γ} (h : ∀ a, Alike (next a) (next' a)) :
    Alike (run >>= next) (run >>= next') := by
  refine (refl run).bind fun a b ha hb => ?_
  cases ha.symm.trans hb
  exact h a

theorem map (h : Alike run other) (f : α → γ) (g : β → δ) :
    Alike (run >>= fun a => pure (f a)) (other >>= fun b => pure (g b)) :=
  h.bind fun _ _ _ _ => ⟨rfl, rfl⟩

theorem each {ι : Type} {f : ι → Run α} {g : ι → Run β} {xs : List ι} (h : ∀ x, Alike (f x) (g x)) :
    Alike (Run.each f xs) (Run.each g xs) := by
  induction xs with
  | nil => exact ⟨rfl, rfl⟩
  | cons x xs ih => exact bind (h x) fun _ _ _ _ => map ih _ _

theorem eq_error {error : QueryError} (h : Alike run other) :
    run.outcome = .error error ↔ other.outcome = .error error := by
  have ends := h.ends
  cases hrun : run.outcome <;> cases hother : other.outcome <;> simp_all

theorem eq_ok (h : Alike run other) : (∃ a, run.outcome = .ok a) ↔ ∃ b, other.outcome = .ok b := by
  have ends := h.ends
  cases hrun : run.outcome <;> cases hother : other.outcome <;> simp_all

end Alike
end Run

namespace Engine
variable {e : Engine} {request : Value} {ctx : Context} {q sub : Query} {r : Resource} {f : Field}
  {t : Target} {name : String} {call : Call} {error : QueryError}

/-! What a query reads, and where it is denied -/

/-- The query that a node runs for one of its children, none where this is left out or a mere link. -/
def ownQuery? (q : Query) (name : String) : Option Query :=
  match childEntry q.take name with
  | some (key, .nested _) => (childQuery q key name).toOption
  | _ => none

/-- The resource that a query targets is open to the requester, with the fields that are selected. -/
structure Opened (e : Engine) (ctx : Context) (r : Resource) (access : Access) (fields : List Field) :
    Prop where
  found : e.findResource ctx.query = .ok r
  granted : can r ("get." ++ ctx.query.endpoint.name) ctx none = .ok access
  allowed : access.isDenied = false
  taken : takeFields r "get" Level.root ctx e.settings = .ok fields

/-- A relation of a batch is rendered deeply, and its target is open to the requester. -/
def Followed (e : Engine) (ctx : Context) (b : Batch) (f : Field) (t : Target) : Prop :=
  b.Deep ctx f ∧ ∃ link access scope, f.link? = some link ∧
    e.Settled ctx b.resource f link b.level t access scope

/-- A batch of an open resource, or one behind open relations. -/
inductive Reached (e : Engine) (ctx : Context) : Batch → Prop
  | root {r : Resource} {access : Access} {fields shown : List Field} (records : List (Option Record))
      (opened : e.Opened ctx r access fields) (among : ∀ f ∈ shown, f ∈ fields) :
      Reached e ctx ⟨none, r, shown, records, Level.root⟩
  | behind {b : Batch} {f : Field} {t : Target} (groups : List (List Record)) (h : Reached e ctx b)
      (followed : e.Followed ctx b f t) : Reached e ctx (t.child f groups)

/-- Calls that a check stands before: for the records of a resource that is open to the requester, for
the targets of a relation that is followed and open, or in the query of a child. -/
inductive Granted (e : Engine) (request : Value) : Query → Call → Prop
  | root {q : Query} {r : Resource} {access : Access} {fields : List Field} {source : String} {p : Plan}
      (opened : e.Opened ⟨q, request⟩ r access fields)
      (planned : e.plan ⟨q, request⟩ r q.endpoint access source = .ok p) :
      Granted e request q (.fetch p.fetch)
  | relation {q : Query} {b : Batch} {f : Field} {t : Target} {values : List Value} {call : Call}
      (reached : e.Reached ⟨q, request⟩ b) (followed : e.Followed ⟨q, request⟩ b f t)
      (loads : call ∈ (e.loadTargets b.resource f t b.records values).calls) :
      Granted e request q call
  | child {q sub : Query} {name : String} {call : Call} (asks : AsksChildren q)
      (among : name ∈ e.children q) (own : ownQuery? q name = some sub)
      (h : Granted e request sub call) : Granted e request q call

/-- The calls of the query that a node runs for one of its children. -/
def ownCalls (e : Engine) (request : Value) (q : Query) (name : String) : List Call :=
  (ownQuery? q name).elim [] fun own => (e.execute own request).calls

/-- A relation that would be followed from a batch leads to a closed resource. -/
def ShutAt (e : Engine) (ctx : Context) (error : QueryError) : Prop :=
  ∃ b f, e.Reached ctx b ∧ b.Deep ctx f ∧ e.Shut ctx b.resource f error

/-- How a query is denied, with the calls made until then: by its resource or the field that it targets,
before any call; at a relation that leads to a closed resource; or as the query of a child is, after the
children before this one have answered. -/
inductive Denied (e : Engine) (request : Value) : Query → QueryError → List Call → Prop
  | resource {q : Query} {r : Resource} (found : e.findResource q = .ok r)
      (closed : can r ("get." ++ q.endpoint.name) ⟨q, request⟩ none = .ok .denied) :
      Denied e request q (.forbidden ("get." ++ q.endpoint.name) r.id) []
  | field {q : Query} {r : Resource} {name : String} {f : Field} (found : e.findResource q = .ok r)
      (targeted : q.field = some name) (named : r.field? name = some f)
      (closed : canTakeField f "get" ⟨q, request⟩ e.settings = .ok false) :
      Denied e request q (.methodNotAllowed "get" r.id name) []
  | relation {q : Query} {error : QueryError} (calls : List Call)
      (shut : e.ShutAt ⟨q, request⟩ error) : Denied e request q error calls
  | child {q sub : Query} {name : String} {before after : List String} {error : QueryError}
      {calls : List Call} (asks : AsksChildren q) (split : e.children q = before ++ name :: after)
      (answered : ∀ earlier ∈ before, ∀ own, ownQuery? q earlier = some own →
        ∃ answer, (e.execute own request).outcome = .ok answer)
      (own : ownQuery? q name = some sub) (h : Denied e request sub error calls) :
      Denied e request q error (before.flatMap (e.ownCalls request q) ++ calls)

/-- A run of a query asks the store for what has been granted only, and is denied at a closed level. -/
structure Checked (e : Engine) (request : Value) (q : Query) (run : Run Response) : Prop where
  granted : ∀ call ∈ run.calls, e.Granted request q call
  denied : ∀ error, run.outcome = .error error → error.denies → e.Denied request q error run.calls

/-! Resources -/

/-- A run that is granted its calls, and refused only where a relation is closed. -/
abbrev Guards {α : Type} (e : Engine) (request : Value) (q : Query) (run : Run α) : Prop :=
  run.Guarded (e.Granted request q) (e.ShutAt ⟨q, request⟩)

theorem Checked.of_guards {run : Run Response} (h : e.Guards request q run) : e.Checked request q run :=
  ⟨h.calls, fun error herror denies =>
    .relation _ (h.refuses error herror (QueryError.refuses_of_denies denies))⟩

/-- What runs before and never refuses makes no difference. -/
theorem Checked.after {α : Type} {x : Except QueryError α} {next : α → Run Response} (hx : Admitted x)
    (hnext : ∀ a, x = .ok a → e.Checked request q (next a)) :
    e.Checked request q (Run.ofExcept x >>= next) := by
  cases x with
  | ok a => exact hnext a rfl
  | error fault =>
    refine ⟨List.forall_mem_nil _, ?_⟩
    rintro _ ⟨⟩ denies
    exact (hx fault rfl (QueryError.refuses_of_denies denies)).elim

theorem guards_loadTargets {b : Batch} (reached : e.Reached ⟨q, request⟩ b)
    (followed : e.Followed ⟨q, request⟩ b f t) (values : List Value) :
    e.Guards request q (e.loadTargets b.resource f t b.records values) :=
  ⟨fun _ loads => .relation reached followed loads, .of_admitted (admitted_loadTargets e _ _ _ _ _)⟩

/-- A column asks for the targets of its relation, if this is open, and for what these need. -/
theorem guards_renderColumn {render : Renderer} {scope : Scope} {b : Batch}
    (hrender : ∀ child, e.Reached ⟨q, request⟩ child → e.Guards request q (render child))
    (hscope : q.scope b.level = .ok scope) (hf : f ∈ b.fields) (reached : e.Reached ⟨q, request⟩ b) :
    e.Guards request q (e.renderColumn ⟨q, request⟩ render scope b f) := by
  unfold renderColumn
  refine .after (.mapM fun record _ => admitted_fieldValue _ _ f record) fun values _ => ?_
  cases hdeep : isDeep ⟨q, request⟩ scope f b.level with
  | false => exact .ofExcept (.ok _)
  | true =>
    simp only [Bool.not_true, Bool.false_eq_true, if_false]
    cases hlink : f.link? with
    | none =>
      dsimp only
      split
      · exact .ofExcept (.ok _)
      · exact .ofExcept (.error rfl)
    | some link =>
      have deep : b.Deep ⟨q, request⟩ f := ⟨hf, by simp [hlink], scope, hscope, hdeep⟩
      have closed : RefusesOnly (e.ShutAt ⟨q, request⟩)
          (e.target ⟨q, request⟩ b.resource f link b.level) := fun error herror refuses =>
        ⟨b, f, reached, deep, refusesOnly_target hlink _ error herror refuses⟩
      refine Run.Guarded.bind (.ofExcept closed) fun t ht => ?_
      obtain ⟨access, entered, settled⟩ := target_eq_ok.mp ht
      have followed : e.Followed ⟨q, request⟩ b f t := ⟨deep, link, access, entered, hlink, settled⟩
      exact (guards_loadTargets reached followed values).bind fun groups _ =>
        (hrender _ (.behind _ reached followed)).map _

/-- Rendering asks for the targets of relations only that are open to the requester. -/
theorem guards_render (fuel : Nat) {b : Batch} (reached : e.Reached ⟨q, request⟩ b) :
    e.Guards request q (e.render ⟨q, request⟩ fuel b) := by
  induction fuel generalizing b with
  | zero => exact .ofExcept (.error rfl)
  | succ fuel ih =>
    have quiet : e.Guards request q (Run.hand b) := ⟨List.forall_mem_nil _, .ok _⟩
    rw [render]
    refine quiet.bind fun _ _ => .after (q.admitted_scope _) fun scope hscope => ?_
    exact Run.Guarded.map (.each fun f hf =>
      guards_renderColumn (fun _ => ih) hscope hf reached) _

/-- Once the resource is found open, what is left of a read is guarded. -/
theorem guards_renderRoot {access : Access} {fields shown : List Field}
    (opened : e.Opened ⟨q, request⟩ r access fields) (among : ∀ f ∈ shown, f ∈ fields)
    (records : List (Option Record)) (make : List Value → Response) :
    e.Guards request q (e.renderRoot ⟨q, request⟩ r shown records >>= fun rows => pure (make rows)) :=
  (guards_render _ (.root records opened among)).map make

/-- The field that a query targets is denied before anything is read. -/
theorem denied_takeFields (found : e.findResource q = .ok r)
    (refused : takeFields r "get" Level.root ⟨q, request⟩ e.settings = .error error)
    (denies : error.denies) : e.Denied request q error [] := by
  have refuses := QueryError.refuses_of_denies denies
  cases targeted : q.field with
  | none => exact (admitted_takeFields "get" e.settings (.inl targeted) error refused refuses).elim
  | some name =>
    unfold takeFields targetField at refused
    simp only [targeted, Level.root] at refused
    cases named : r.field? name with
    | none =>
      rw [named] at refused
      cases refused
      cases denies
    | some f =>
      rw [named] at refused
      cases closed : canTakeField f "get" ⟨q, request⟩ e.settings with
      | error fault =>
        simp only [closed] at refused
        cases refused
        exact (admitted_canTakeField f "get" _ _ _ closed refuses).elim
      | ok allowed =>
        simp only [closed] at refused
        cases allowed with
        | true => cases refused
        | false =>
          cases refused
          exact .field found targeted named closed

/-- A resource that is not open is denied before anything is read. -/
theorem denied_opening (refused : e.opening ⟨q, request⟩ q.endpoint = .error error)
    (denies : error.denies) : e.Denied request q error [] := by
  have refuses := QueryError.refuses_of_denies denies
  unfold opening at refused
  cases found : e.findResource q with
  | error fault =>
    rw [found] at refused
    cases refused
    exact (admitted_findResource e q _ found refuses).elim
  | ok r =>
    rw [found, Except.ok_bind] at refused
    cases granted : can r ("get." ++ q.endpoint.name) ⟨q, request⟩ none with
    | error fault =>
      rw [granted] at refused
      cases refused
      exact (admitted_can r _ _ none _ granted refuses).elim
    | ok access =>
      rw [granted, Except.ok_bind] at refused
      cases access with
      | denied =>
        cases refused
        exact .resource found granted
      | all | only predicate => exact denied_takeFields found (Except.map_eq_error.mp refused) denies

/-- Loading asks the store for the records of an open resource. -/
theorem guards_load {o : Opening} (opened : e.Opened ⟨q, request⟩ o.resource o.access o.fields)
    (path : Option String) : e.Guards request q (e.load ⟨q, request⟩ q.endpoint path o) := by
  unfold load
  split
  · refine .after (admitted_plan e _ _ _ _ _) fun p planned => ?_
    have fetches : e.Guards request q (e.store.runFetch p.fetch) :=
      ⟨List.forall_mem_singleton.mpr (.root opened planned), .of_admitted (Store.admitted_answer _)⟩
    exact fetches.bind fun fetched _ => .ofExcept (.of_admitted (admitted_showing e _ _ _ _ _ _))
  · split
    · exact .ofExcept (.ok _)
    · exact .ofExcept (.error rfl)

/-- A read of a resource, a record or a field is checked before it asks for anything. -/
theorem checked_getResource (path : Option String) :
    e.Checked request q (e.getResource ⟨q, request⟩ q.endpoint path) := by
  rw [getResource_eq]
  cases hopen : e.opening ⟨q, request⟩ q.endpoint with
  | error fault =>
    refine ⟨List.forall_mem_nil _, ?_⟩
    rintro _ ⟨⟩ denies
    exact denied_opening hopen denies
  | ok o =>
    obtain ⟨found, granted, allowed, taken⟩ := opening_eq_ok.mp hopen
    have opened : e.Opened ⟨q, request⟩ o.resource o.access o.fields := ⟨found, granted, allowed, taken⟩
    refine .of_guards ((guards_load opened path).bind fun l loads => ?_)
    exact guards_renderRoot opened (load_eq_ok.mp loads).sublist.subset _ _

/-! Children of servers and spaces -/

/-- The query of a child asks for the child alone, with the action of the whole query. -/
structure OwnTarget (q : Query) (name : String) (sub : Query) : Prop where
  space : sub.space = some (q.space.getD name)
  resource : sub.resource = q.space.map fun _ => name
  record : sub.record = none
  field : sub.field = none
  action : sub.action = q.action

theorem ownTarget_of_childQuery {key : String} (asks : AsksChildren q)
    (h : childQuery q key name = .ok sub) : OwnTarget q name sub := by
  obtain ⟨resource, record, field⟩ := asks
  unfold childQuery Query.subquery? at h
  cases located : q.at? (Level.ofText key) with
  | none => simp [located] at h
  | some state =>
    cases space : q.space <;> simp only [located, space, resource, record, field] at h <;> cases h <;>
      exact ⟨by simp [space], by simp [space], rfl, rfl, rfl⟩

theorem ownTarget (asks : AsksChildren q) (own : ownQuery? q name = some sub) : OwnTarget q name sub := by
  unfold ownQuery? at own
  split at own
  · exact ownTarget_of_childQuery asks (Except.toOption_eq_some.mp own)
  · cases own

theorem admitted_childQuery (q : Query) (key name : String) : Admitted (childQuery q key name) := by
  unfold childQuery
  split
  · exact .error rfl
  · exact .ok _

section getChild
variable {get : Context → Option String → Run Response} {path : Option String}

/-- A child that has a query of its own is read by running this. -/
theorem getChild_eq_own (own : ownQuery? q name = some sub) :
    getChild get ⟨q, request⟩ path name =
      get ⟨sub, request⟩ (some (below path name)) >>= fun response => pure (some response) := by
  unfold ownQuery? at own
  unfold getChild
  dsimp only
  generalize childEntry q.take name = entry at own ⊢
  rcases entry with _ | ⟨key, (_ | _) | state⟩
  · cases own
  · cases own
  · cases own
  · dsimp only at own ⊢
    rw [Except.toOption_eq_some.mp own]
    cases path <;> rfl

/-- A child that has none makes no call, and is never refused. -/
theorem getChild_of_none (own : ownQuery? q name = none) :
    (getChild get ⟨q, request⟩ path name).calls = [] ∧
      Admitted (getChild get ⟨q, request⟩ path name).outcome := by
  unfold ownQuery? at own
  unfold getChild
  dsimp only
  generalize childEntry q.take name = entry at own ⊢
  rcases entry with _ | ⟨key, (_ | _) | state⟩
  · exact ⟨rfl, .ok _⟩
  · exact ⟨rfl, .ok _⟩
  · exact ⟨rfl, .ok _⟩
  · obtain ⟨fault, hfault⟩ := Except.toOption_eq_none.mp own
    have admitted := admitted_childQuery q key name
    dsimp only
    rw [hfault] at admitted ⊢
    refine ⟨rfl, ?_⟩
    rintro _ ⟨⟩
    exact admitted fault rfl

variable (alike : ∀ name sub, ownQuery? q name = some sub →
  ∀ path, (get ⟨sub, request⟩ path).Alike (e.execute sub request))
include alike

theorem alike_getChild (own : ownQuery? q name = some sub) :
    (getChild get ⟨q, request⟩ path name).Alike (e.execute sub request) := by
  rw [getChild_eq_own own]
  have same := alike name sub own (some (below path name))
  refine ⟨(Run.calls_map _ _).trans same.calls, ?_⟩
  rw [Run.outcome_map, ← same.ends]
  cases (get ⟨sub, request⟩ (some (below path name))).outcome <;> rfl

theorem calls_getChild (name : String) :
    (getChild get ⟨q, request⟩ path name).calls = e.ownCalls request q name := by
  unfold ownCalls
  cases own : ownQuery? q name with
  | none => exact (getChild_of_none own).1
  | some sub => exact (alike_getChild alike own).calls

/-- A node is checked as the queries of its children are. -/
theorem checked_getChildren (asks : AsksChildren q)
    (checked : ∀ name sub, ownQuery? q name = some sub → e.Checked request sub (e.execute sub request)) :
    e.Checked request q (getChildren get ⟨q, request⟩ path (e.children q)) := by
  let answer (name : String) : Run (Option (String × Response)) :=
    getChild get ⟨q, request⟩ path name >>= fun part => pure (part.map fun response => (name, response))
  have calls (name : String) : (answer name).calls = e.ownCalls request q name :=
    (Run.calls_map _ _).trans (calls_getChild alike name)
  have granted (name : String) (hname : name ∈ e.children q) :
      ∀ call ∈ e.ownCalls request q name, e.Granted request q call := by
    intro call hcall
    unfold ownCalls at hcall
    cases own : ownQuery? q name with
    | none => simp [own] at hcall
    | some sub =>
      rw [own] at hcall
      exact .child asks hname own ((checked name sub own).granted call hcall)
  have each : (Run.each answer (e.children q)).Guarded (e.Granted request q) fun _ => True :=
    .each fun name hname => ⟨calls name ▸ granted name hname, fun _ _ _ => trivial⟩
  refine ⟨(each.map _).calls, fun error herror denies => ?_⟩
  unfold getChildren at herror ⊢
  rw [Run.calls_map]
  rw [Run.outcome_map] at herror
  obtain ⟨before, name, after, split, ran, hname, hcalls⟩ :=
    Run.each_eq_error (Except.map_eq_error.mp herror)
  have hname : (getChild get ⟨q, request⟩ path name).outcome = .error error :=
    Except.map_eq_error.mp ((Run.outcome_map _ _).symm.trans hname)
  cases own : ownQuery? q name with
  | none => exact ((getChild_of_none own).2 error hname (QueryError.refuses_of_denies denies)).elim
  | some sub =>
    have own_error := (alike_getChild alike own).eq_error.mp hname
    have denied := Denied.child asks split ?_ own ((checked name sub own).denied error own_error denies)
    · rw [hcalls, calls name, funext calls, ownCalls, own]
      exact denied
    · intro earlier hearlier sub own
      obtain ⟨part, hpart⟩ := ran earlier hearlier
      obtain ⟨part, hpart, -⟩ := Run.outcome_bind.mp hpart
      exact (alike_getChild alike own).eq_ok.mp ⟨part, hpart⟩

end getChild

/-! Under whatever name -/

theorem alike_turnPage {window : Window} {fetched : Fetched} {path other : Option String}
    {next : List Record × Entries PageMeta → Run Response}
    (same : ∀ records page page', (next (records, page)).Alike (next (records, page'))) :
    (Run.ofExcept (e.turnPage r window path fetched) >>= next).Alike
      (Run.ofExcept (e.turnPage r window other fetched) >>= next) := by
  unfold turnPage
  split
  · exact same _ _ _
  · dsimp only
    cases e.keysetValues r window (fetched.records.take window.size.toNat).getLast? with
    | error fault => exact .refl _
    | ok last => exact same _ _ _

theorem alike_load {endpoint : Endpoint} {path other : Option String} {o : Opening}
    {next : Loaded → Run Response}
    (same : ∀ fields records page page',
      (next ⟨fields, records, some page⟩).Alike (next ⟨fields, records, some page'⟩)) :
    (e.load ctx endpoint path o >>= next).Alike (e.load ctx endpoint other o >>= next) := by
  unfold load
  split
  · simp only [loadFrom, bind_assoc]
    refine .after fun p => .after fun fetched => ?_
    unfold showing
    split
    · rw [Run.ofExcept_map, Run.ofExcept_map]
      exact alike_turnPage fun records page page' => same o.fields (records.map some) page page'
    · exact .refl _
  · exact .refl _

/-- A resource is read in the same way under every name. -/
theorem alike_getResource (e : Engine) (ctx : Context) (endpoint : Endpoint) (path other : Option String) :
    (e.getResource ctx endpoint path).Alike (e.getResource ctx endpoint other) := by
  rw [getResource_eq, getResource_eq]
  exact .after fun o => alike_load fun _ _ _ _ => .after fun rows => ⟨rfl, rfl⟩

theorem alike_getChildren {get : Context → Option String → Run Response}
    (same : ∀ ctx path other, (get ctx path).Alike (get ctx other)) (ctx : Context)
    (path other : Option String) (names : List String) :
    (getChildren get ctx path names).Alike (getChildren get ctx other names) := by
  refine .map (.each fun name => .map ?_ _ _) _ _
  unfold getChild
  dsimp only
  rcases childEntry ctx.query.take name with _ | ⟨key, (_ | _) | state⟩
  · exact .refl _
  · exact .refl _
  · exact .refl _
  · exact .after fun sub => .map (same _ _ _) _ _

theorem alike_getSpace (e : Engine) (ctx : Context) (owner : String) (path other : Option String) :
    (e.getSpace ctx owner path).Alike (e.getSpace ctx owner other) :=
  .after fun _ => alike_getChildren (fun sub => alike_getResource e sub .resource) ctx path other _

/-! Reading -/

section reads
variable (reads : q.action.getD .get = .get)
include reads

theorem checked_execute_resource (request : Value)
    (targets : q.endpoint = .resource ∨ q.endpoint = .record ∨ q.endpoint = .field) :
    e.Checked request q (e.execute q request) := by
  rw [execute_reads request reads targets]
  exact checked_getResource none

/-- A space is checked as its resources are. -/
theorem checked_execute_space (request : Value) (asks : AsksChildren q) {owner : String}
    (space : q.space = some owner) : e.Checked request q (e.execute q request) := by
  have target (name : String) (sub : Query) (own : ownQuery? q name = some sub) :
      sub.action.getD .get = .get ∧ sub.endpoint = .resource := by
    obtain ⟨-, resource, record, field, action⟩ := ownTarget asks own
    exact ⟨action ▸ reads, by simp [Query.endpoint, resource, record, field, space]⟩
  rw [execute_getSpace reads asks space]
  unfold getSpace findSpace
  cases found : e.server.space? owner with
  | none => exact .after (RefusesOnly.error rfl) fun _ h => by cases h
  | some known =>
    have names : known.resources.keys = e.children q := by simp [children, space, found]
    refine .after (.ok known) fun _ same => ?_
    cases same
    rw [names]
    refine checked_getChildren (fun name sub own path => ?_) asks fun name sub own => ?_
    · obtain ⟨reads', resource⟩ := target name sub own
      rw [execute_reads request reads' (.inl resource), resource]
      exact alike_getResource e _ _ _ _
    · obtain ⟨reads', resource⟩ := target name sub own
      exact checked_execute_resource reads' request (.inl resource)

/-- A query that reads is checked at each level before this is read. -/
theorem checked_execute (request : Value) : e.Checked request q (e.execute q request) := by
  by_cases targets : q.endpoint = .resource ∨ q.endpoint = .record ∨ q.endpoint = .field
  · exact checked_execute_resource reads request targets
  have node : q.endpoint = .server ∨ q.endpoint = .space := by
    cases h : q.endpoint <;> simp_all
  have asks := asksChildren_iff.mpr node
  cases space : q.space with
  | some owner => exact checked_execute_space reads request asks space
  | none =>
    have names : e.server.spaces.keys = e.children q := by simp [children, space]
    rw [execute_getServer reads asks space, getServer, names]
    have below (name : String) (sub : Query) (own : ownQuery? q name = some sub) :
        sub.action.getD .get = .get ∧ AsksChildren sub ∧ sub.space = some name := by
      obtain ⟨owned, resource, record, field, action⟩ := ownTarget asks own
      exact ⟨action ▸ reads, ⟨by simp [resource, space], record, field⟩, by simp [owned, space]⟩
    refine checked_getChildren (fun name sub own path => ?_) asks fun name sub own => ?_
    · obtain ⟨reads', asks', owned⟩ := below name sub own
      rw [execute_getSpace reads' asks' owned, owned]
      exact alike_getSpace e _ _ _ _
    · obtain ⟨reads', asks', owned⟩ := below name sub own
      exact checked_execute_space reads' request asks' owned

end reads

/-- A query for a resource, a record or a field that is denied by its own target has made no call. -/
theorem Denied.calls_eq_nil {calls : List Call} (h : e.Denied request q error calls)
    (targets : q.endpoint = .resource ∨ q.endpoint = .record ∨ q.endpoint = .field) :
    (∃ id, error = .forbidden "get.prefetch" id) ∨ calls = [] := by
  cases h with
  | resource | field => exact .inr rfl
  | relation _ shut =>
    obtain ⟨b, f, -, -, link, related, -, -, -, rfl⟩ := shut
    exact .inl ⟨_, rfl⟩
  | child asks =>
    rcases asksChildren_iff.mp asks with node | node <;> simp [node] at targets

/-- Permission comes before data, level by level. Whatever a query that reads asks of the store is asked
for a level that was found open to the requester before, and so were all levels above. A query that ends
in a denial has been denied by its own target, before any call; at a relation that leads to a closed
resource; or in the query of one of its children, after the children before this one. -/
theorem execute_denied (e : Engine) (q : Query) (request : Value) (reads : q.action.getD .get = .get) :
    (∀ call ∈ (e.execute q request).calls, e.Granted request q call) ∧
      ∀ error, (e.execute q request).outcome = .error error → error.denies →
        e.Denied request q error (e.execute q request).calls ∧
        (q.endpoint = .resource ∨ q.endpoint = .record ∨ q.endpoint = .field →
          (∃ id, error = .forbidden "get.prefetch" id) ∨ (e.execute q request).calls = []) := by
  have checked := checked_execute (e := e) reads request
  refine ⟨checked.granted, fun error herror denies => ?_⟩
  have denied := checked.denied error herror denies
  exact ⟨denied, denied.calls_eq_nil⟩

end Engine

/-! A library of authors and of books that are closed -/

namespace Shelf

def authors : Resource := { book with name := "author", source := some "authors", can := none }

/-- Authors, and books that may not be listed. -/
def guarded : Engine where
  server := {
    spaces := [("library", ⟨"library", [("author", authors),
      ("book", { books with can := some [("get.resource", .bool false)] })]⟩)] }
  store := [("authors", [[("id", .str "a1"), ("meta", .node "title" (.str "Jane"))]])]
  settings := {}

/-- All resources of the library. -/
def everything : Query where
  space := some "library"
  take := some [("*", .nested {})]

end Shelf

theorem Run.exists_denial {α : Type} {run : Run α}
    (h : (run.outcome.map fun _ => ()).mapError QueryError.denies = .error true) :
    ∃ error, run.outcome = .error error ∧ error.denies := by
  cases hrun : run.outcome with
  | ok a =>
    rw [hrun] at h
    cases h
  | error error =>
    rw [hrun] at h
    exact ⟨error, rfl, Except.error.inj h⟩

/-- The authors of the library are read before its books are denied, and nothing else is. -/
theorem Engine.execute_denied_everything :
    let run := Shelf.guarded.execute Shelf.everything .null
    run.calls.length = 1 ∧ (∀ call ∈ run.calls, Shelf.guarded.Granted .null Shelf.everything call) ∧
      ∃ error, run.outcome = .error error ∧ error.denies ∧
        Shelf.guarded.Denied .null Shelf.everything error run.calls := by
  intro run
  have fails : (run.outcome.map fun _ => ()).mapError QueryError.denies = .error true := by decide +kernel
  obtain ⟨error, ends, denies⟩ := Run.exists_denial fails
  obtain ⟨granted, denied⟩ := execute_denied Shelf.guarded Shelf.everything .null rfl
  exact ⟨by decide +kernel, granted, error, ends, denies, (denied error ends denies).1⟩

/-- Books that are listed with their sequels are read before the sequels are denied. -/
theorem Engine.execute_denied_sequel :
    let run := Shelf.closed.execute Shelf.followed .null
    Shelf.followed.action.getD .get = .get ∧ run.calls ≠ [] ∧
      ∃ error, run.outcome = .error error ∧ error.denies := by
  intro run
  have called : run.calls.length = 1 := by decide +kernel
  exact ⟨rfl, fun none => by simp [none] at called, Run.exists_denial (by decide +kernel)⟩

end RecordGraph
