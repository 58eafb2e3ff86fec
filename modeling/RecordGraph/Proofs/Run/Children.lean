import Mathlib.Data.List.Nodup
import Mathlib.Data.List.Perm.Basic
import RecordGraph.Proofs.Entries
import RecordGraph.Proofs.Run.Get
import RecordGraph.Proofs.Text.Pieces

/-!
Servers and spaces. What they answer is put together from their children: a child that is taken with a
nested state answers a query of its own, and its continuations are found under its name.
-/
namespace RecordGraph

/-! Keys of continuations -/

/-- A name, with what stands behind a point if anything does. -/
def dotted (name : String) : Option String → String
  | some rest => name ++ "." ++ rest
  | none => name

theorem splitFirst_dotted {name : String} (undotted : '.' ∉ name.toList) (rest : Option String) :
    Text.splitFirst '.' (dotted name rest) = (name, rest) := by
  cases rest with
  | none => exact Text.splitFirst_of_not_mem undotted
  | some rest => exact Text.splitFirst_joined rest undotted

theorem dotted_dotted (name inner : String) (rest : Option String) :
    dotted (dotted name (some inner)) rest = dotted name (some (dotted inner rest)) := by
  cases rest <;> simp [dotted, String.append_assoc]

theorem Engine.pageKey_eq (path : Option String) : Engine.pageKey path = dotted "data" path := by
  cases path <;> rfl

namespace Response

/-- The key of a continuation under the name of a child: `data` is `data.<name>` there, and `data.x` is
`data.<name>.x`. -/
def keyUnder (name key : String) : String :=
  dotted "data" (some (dotted name (Text.splitFirst '.' key).2))

/-- Continuations as they are found under the name of a child. -/
def pagesUnder (name : String) (pages : List (String × PageMeta)) : List (String × PageMeta) :=
  pages.map fun page => (keyUnder name page.1, page.2)

/-- An answer as it is found under the name of a child. -/
def under (name : String) (answer : Response) : Response :=
  ⟨answer.data, Entries.ofList (pagesUnder name answer.page)⟩

theorem keyUnder_pageKey (name : String) (path : Option String) :
    keyUnder name (Engine.pageKey path) = Engine.pageKey (some (dotted name path)) := by
  rw [Engine.pageKey_eq, Engine.pageKey_eq, keyUnder, splitFirst_dotted (by decide)]

theorem keyUnder_keyUnder (name inner key : String) :
    keyUnder name (keyUnder inner key) = keyUnder (dotted name (some inner)) key := by
  rw [keyUnder, keyUnder, splitFirst_dotted (by decide), keyUnder, dotted_dotted]

theorem pagesUnder_pagesUnder (name inner : String) (pages : List (String × PageMeta)) :
    pagesUnder name (pagesUnder inner pages) = pagesUnder (dotted name (some inner)) pages := by
  simp [pagesUnder, keyUnder_keyUnder]

/-- Continuations under different keys, each `data` or a path behind it. -/
structure Keyed (pages : List (String × PageMeta)) : Prop where
  distinct : (pages.map Prod.fst).Nodup
  paths : ∀ page ∈ pages, ∃ path, page.1 = Engine.pageKey path

theorem Keyed.nil : Keyed [] := ⟨List.nodup_nil, by simp⟩

theorem Keyed.single (path : Option String) (page : PageMeta) : Keyed [(Engine.pageKey path, page)] where
  distinct := List.nodup_singleton _
  paths := by simp

theorem Keyed.perm {pages others : List (String × PageMeta)} (h : Keyed pages) (perm : others.Perm pages) :
    Keyed others where
  distinct := (perm.map Prod.fst).nodup_iff.mpr h.distinct
  paths page hpage := h.paths page (perm.mem_iff.mp hpage)

/-- The continuations of several children do not meet. -/
theorem Keyed.flatMap {names : List String} {pages : String → List (String × PageMeta)}
    (distinct : names.Nodup) (undotted : ∀ name ∈ names, '.' ∉ name.toList)
    (keyed : ∀ name ∈ names, Keyed (pages name)) :
    Keyed (names.flatMap fun name => pagesUnder name (pages name)) := by
  -- a key tells the name and what stands behind it
  have key {name : String} (hname : name ∈ names) {page : String × PageMeta}
      (hpage : page ∈ pages name) : ∃ path, page.1 = Engine.pageKey path ∧
        keyUnder name page.1 = Engine.pageKey (some (dotted name path)) ∧
        Text.splitFirst '.' (dotted name path) = (name, path) := by
    obtain ⟨path, hpath⟩ := (keyed name hname).paths page hpage
    exact ⟨path, hpath, by rw [hpath, keyUnder_pageKey], splitFirst_dotted (undotted name hname) path⟩
  have inj {path path' : Option String} (h : Engine.pageKey path = Engine.pageKey path') :
      path = path' := by
    have hsplit := congrArg (Text.splitFirst '.') h
    rw [Engine.pageKey_eq, Engine.pageKey_eq, splitFirst_dotted (by decide),
      splitFirst_dotted (by decide)] at hsplit
    exact (Prod.mk.inj hsplit).2
  have same {name name' : String} (hname : name ∈ names) (hname' : name' ∈ names)
      {page page' : String × PageMeta} (hpage : page ∈ pages name) (hpage' : page' ∈ pages name')
      (h : keyUnder name page.1 = keyUnder name' page'.1) : name = name' ∧ page.1 = page'.1 := by
    obtain ⟨path, hkey, hunder, hsplit⟩ := key hname hpage
    obtain ⟨path', hkey', hunder', hsplit'⟩ := key hname' hpage'
    rw [hunder, hunder'] at h
    rw [Option.some.inj (inj h), hsplit'] at hsplit
    obtain ⟨hname, hpath⟩ := Prod.mk.inj hsplit
    exact ⟨hname.symm, by rw [hkey, hkey', hpath]⟩
  constructor
  · rw [List.map_flatMap, List.nodup_flatMap]
    refine ⟨fun name hname => ?_, distinct.imp_of_mem fun {name name'} hname hname' hne => ?_⟩
    · rw [pagesUnder, List.map_map]
      exact (List.Nodup.of_map _ (keyed name hname).distinct).map_on fun page hpage page' hpage' h =>
        List.inj_on_of_nodup_map (keyed name hname).distinct hpage hpage'
          (same hname hname hpage hpage' h).2
    · simp only [pagesUnder, List.map_map, Function.onFun, List.disjoint_left, List.mem_map]
      rintro _ ⟨page, hpage, rfl⟩ ⟨page', hpage', h⟩
      exact hne (same hname hname' hpage hpage' h.symm).1
  · simp only [List.mem_flatMap, pagesUnder, List.mem_map]
    rintro _ ⟨name, hname, page, hpage, rfl⟩
    obtain ⟨path, -, hunder, -⟩ := key hname hpage
    exact ⟨_, hunder⟩

theorem Keyed.under {name : String} {pages : List (String × PageMeta)} (undotted : '.' ∉ name.toList)
    (h : Keyed pages) : Keyed (pagesUnder name pages) := by
  have single : Keyed ([name].flatMap fun name => pagesUnder name pages) :=
    Keyed.flatMap (List.nodup_singleton _) (by simpa using undotted) (by simpa using h)
  simpa using single

end Response

/-! Queries of children -/

/-- Names as those of a declared graph are read in levels: neither empty nor dotted. -/
def IsPlainName (name : String) : Prop := name ≠ "" ∧ '.' ∉ name.toList

/-- Plain names, each given once. -/
structure PlainNames (names : List String) : Prop where
  distinct : names.Nodup
  plain : ∀ name ∈ names, IsPlainName name

/-- A graph whose spaces have plain names, and in each space its resources. -/
structure Server.IsPlain (s : Server) : Prop where
  spaces : PlainNames s.spaces.keys
  resources : ∀ {name : String} {space : Space}, s.space? name = some space →
    PlainNames space.resources.keys

theorem IsPlainName.names {name : String} (h : IsPlainName name) : (Level.ofText name).names = [name] := by
  rw [Level.ofText, Text.pieces_of_not_mem h.2]
  simp [Level.names, h.1]

namespace Query
variable {q state : Query} {name key : String}

/-- What a query takes of a child: what it says of its name or else of a star, and a link where it says
nothing of any child. -/
def childTake (q : Query) (name : String) : Option Take :=
  match q.take with
  | none => some (.flag true)
  | some entries => (Entries.get? entries name).or (Entries.get? entries "*")

/-- The query of a child on its own: the leveled features of its state, under the target of the child
and the action and inspection of the root. -/
def child (q : Query) (name : String) (state : Query) : Query :=
  { state.leveledFeatures with
    space := some (q.space.getD name)
    resource := q.space.map fun _ => name
    action := q.action
    inspect := q.inspect }

@[simp] theorem child_space : (q.child name state).space = some (q.space.getD name) := rfl
@[simp] theorem child_resource : (q.child name state).resource = q.space.map fun _ => name := rfl
@[simp] theorem child_record : (q.child name state).record = none := rfl
@[simp] theorem child_field : (q.child name state).field = none := rfl
@[simp] theorem child_action : (q.child name state).action = q.action := rfl

theorem childTake_eq (q : Query) (name : String) :
    q.childTake name = (Engine.childEntry q.take name).map Prod.snd := by
  unfold childTake Engine.childEntry
  cases q.take with
  | none => rfl
  | some entries =>
    dsimp only
    cases Entries.get? entries name with
    | some entry => rfl
    | none => simp [Option.map_map, Function.comp_def]

/-- A nested state stands under the name of the child or under the star. -/
theorem childEntry_nested (plain : IsPlainName name)
    (h : Engine.childEntry q.take name = some (key, .nested state)) :
    IsPlainName key ∧ q.entry? key = some (.nested state) := by
  unfold Engine.childEntry at h
  unfold entry?
  cases htake : q.take with
  | none =>
    rw [htake] at h
    cases h
  | some entries =>
    simp only [htake] at h
    cases hname : Entries.get? entries name with
    | some entry =>
      rw [hname] at h
      cases h
      exact ⟨plain, hname⟩
    | none =>
      rw [hname] at h
      obtain ⟨entry, hstar, heq⟩ := Option.map_eq_some_iff.mp h
      cases heq
      exact ⟨⟨by decide, by decide⟩, hstar⟩

end Query

namespace Engine
variable {e : Engine} {q state : Query} {r : Resource} {request : Value} {name : String}

/-- A query for the server, or for a space. -/
structure AsksChildren (q : Query) : Prop where
  resource : q.resource = none
  record : q.record = none
  field : q.field = none

theorem asksChildren_iff : AsksChildren q ↔ q.endpoint = .server ∨ q.endpoint = .space := by
  constructor
  · rintro ⟨hresource, hrecord, hfield⟩
    cases hspace : q.space <;> simp [Query.endpoint, hresource, hrecord, hfield, hspace]
  · intro h
    unfold Query.endpoint at h
    cases hfield : q.field <;> cases hrecord : q.record <;> cases hresource : q.resource <;>
      simp_all
    exact ⟨hresource, hrecord, hfield⟩

theorem space_of_server (h : q.endpoint = .server) : q.space = none := by
  obtain ⟨hresource, hrecord, hfield⟩ := asksChildren_iff.mpr (.inl h)
  by_contra hsome
  simp [Query.endpoint, hresource, hrecord, hfield, Option.isSome_iff_ne_none.mpr hsome] at h

theorem space_of_space (h : q.endpoint = .space) : ∃ owner, q.space = some owner := by
  obtain ⟨hresource, hrecord, hfield⟩ := asksChildren_iff.mpr (.inr h)
  rw [← Option.isSome_iff_exists]
  by_contra hnone
  simp [Query.endpoint, hresource, hrecord, hfield, hnone] at h

/-- The child of the server is a space, and asks for its own children. -/
theorem asksChildren_child (hspace : q.space = none) : AsksChildren (q.child name state) :=
  ⟨by simp [hspace], rfl, rfl⟩

/-- A nested state is asked as the query of its child. -/
theorem childQuery_eq (asks : AsksChildren q) {key : String} (plain : IsPlainName key)
    (h : q.entry? key = some (.nested state)) : childQuery q key name = .ok (q.child name state) := by
  obtain ⟨hresource, hrecord, hfield⟩ := asks
  have located : q.at? (Level.ofText key) = some (.state state) := by
    rw [Query.at?, plain.names, Query.follow, h]
    rfl
  unfold childQuery Query.subquery?
  rw [located]
  cases hspace : q.space <;>
    simp [Query.child, Query.leveledFeatures, hspace, hresource, hrecord, hfield]

/-- The name of a child behind that of its parent, if this has one. -/
def below (path : Option String) (name : String) : String :=
  path.elim name fun path => dotted path (some name)

/-- What a child adds to an answer: nothing if it is left out, a link if it is merely taken, and what its
own query answers. -/
theorem outcome_getChild (get : Context → Option String → Run Response) (asks : AsksChildren q)
    (plain : IsPlainName name) (path : Option String) :
    (getChild get ⟨q, request⟩ path name).outcome = match q.childTake name with
      | some (.flag true) => .ok (some ⟨.str ("./" ++ name ++ "/"), []⟩)
      | some (.nested state) => (get ⟨q.child name state, request⟩
          (some (below path name))).outcome.map some
      | _ => .ok none := by
  unfold getChild
  rw [Query.childTake_eq]
  dsimp only
  rcases hentry : childEntry q.take name with _ | ⟨key, (_ | _) | nested⟩
  · rfl
  · rfl
  · rfl
  · obtain ⟨hkey, hnested⟩ := Query.childEntry_nested plain hentry
    dsimp only [Option.map_some]
    rw [childQuery_eq asks hkey hnested, Run.outcome_bind_ok rfl, Run.outcome_map]
    cases path <;> rfl

/-! Answers of children put together -/

/-- Answers put together, each under its name. -/
def gathered (names : List String) (part : String → Option Response) : Response where
  data := .obj (names.filterMap fun name => (part name).map fun answer => (name, answer.data))
  page := Entries.ofList (names.flatMap fun name => (part name).elim [] Response.page)

theorem gathered_congr {names : List String} {part other : String → Option Response}
    (h : ∀ name ∈ names, part name = other name) : gathered names part = gathered names other := by
  refine congrArg₂ Response.mk (congrArg _ ?_) (congrArg _ ?_)
  · exact List.filterMap_congr fun name hname => by rw [h name hname]
  · exact List.flatMap_congr fun name hname => by rw [h name hname]

/-- What is kept of the answers of the children, in their order, makes up the answer of their node. -/
theorem gathered_eq (names : List String) (part : String → Option Response)
    {found : List (String × Response)}
    (h : found = names.filterMap fun name => (part name).map (name, ·)) :
    { data := .obj (found.map fun (name, response) => (name, response.data))
      page := found.foldl (fun pages (_, response) => Response.mergePages pages response.page) [] } =
      gathered names part := by
  have pages : names.flatMap (fun name => (part name).elim [] Response.page) =
      found.flatMap fun answer => answer.2.page := by
    rw [h, List.filterMap_eq_flatMap_toList, List.flatMap_assoc]
    refine List.flatMap_congr fun name _ => ?_
    cases part name <;> simp
  rw [gathered, pages, Entries.ofList, List.foldl_flatMap, h, List.map_filterMap]
  simp only [Option.map_map]
  rfl

/-- The children of a node answer together as each of them does. -/
theorem getChildren_eq_ok {get : Context → Option String → Run Response} {ctx : Context}
    {path : Option String} {names : List String} {response : Response} :
    (getChildren get ctx path names).outcome = .ok response ↔
      (∀ name ∈ names, ∃ part, (getChild get ctx path name).outcome = .ok part) ∧
        response = gathered names fun name =>
          (getChild get ctx path name).outcome.toOption.getD none := by
  have part (name : String) (entry : Option (String × Response)) :
      ((getChild get ctx path name >>= fun part => pure (part.map (name, ·))).outcome = .ok entry) ↔
        (∃ part, (getChild get ctx path name).outcome = .ok part) ∧
          entry = ((getChild get ctx path name).outcome.toOption.getD none).map (name, ·) := by
    rw [Run.outcome_map]
    cases (getChild get ctx path name).outcome <;> simp [Except.toOption, eq_comm]
  have found := List.filterMap_map (f := fun name =>
    ((getChild get ctx path name).outcome.toOption.getD none).map (name, ·)) (g := id) (l := names)
  unfold getChildren
  rw [Run.outcome_map, Except.map_eq_ok]
  simp only [Run.outcome_each_eq_ok, List.forall₂_iff_map fun name _ => part name]
  constructor
  · rintro ⟨_, ⟨defined, rfl⟩, rfl⟩
    exact ⟨defined, gathered_eq names _ found⟩
  · rintro ⟨defined, rfl⟩
    exact ⟨_, ⟨defined, rfl⟩, gathered_eq names _ found⟩

/-! Answers of resources, under the names of their parents -/

theorem turnPage_under (e : Engine) (r : Resource) (window : Window) (fetched : Fetched) :
    e.turnPage r window (some name) fetched = (e.turnPage r window none fetched).map
      fun (records, page) => (records, Entries.ofList (Response.pagesUnder name page)) := by
  unfold turnPage
  split
  · rfl
  · dsimp only
    cases e.keysetValues r window (fetched.records.take window.size.toNat).getLast? with
    | error fault => rfl
    | ok last =>
      simp [Response.pagesUnder, Response.keyUnder_pageKey, dotted, Entries.ofList, Entries.insert]

/-- What is loaded, with the continuations of a list under a name. -/
def Loaded.under (name : String) (l : Loaded) : Loaded :=
  { l with list? := l.list?.map fun page => Entries.ofList (Response.pagesUnder name page) }

theorem Loaded.answer_under (name : String) (l : Loaded) (rows : List Value) :
    (l.under name).answer rows = (l.answer rows).under name := by
  obtain ⟨fields, records, _ | page⟩ := l <;> rfl

theorem load_under (e : Engine) (ctx : Context) (endpoint : Endpoint) (name : String) (o : Opening) :
    (e.load ctx endpoint (some name) o).outcome =
      (e.load ctx endpoint none o).outcome.map (Loaded.under name) := by
  unfold load
  split
  · refine Run.outcome_bind_map _ fun p => Run.outcome_bind_map _ fun fetched => ?_
    change e.showing ctx endpoint (some name) o p fetched =
      (e.showing ctx endpoint none o p fetched).map (Loaded.under name)
    unfold showing
    rw [turnPage_under]
    cases p.many with
    | true => cases e.turnPage o.resource p.window none fetched <;> rfl
    | false => cases theRecord ctx.query o.resource endpoint fetched <;> rfl
  · split <;> rfl

/-- A resource answers under a name what it answers by itself. -/
theorem getResource_under (e : Engine) (ctx : Context) (endpoint : Endpoint) (name : String) :
    (e.getResource ctx endpoint (some name)).outcome =
      (e.getResource ctx endpoint none).outcome.map (Response.under name) := by
  rw [getResource_eq, getResource_eq]
  refine Run.outcome_bind_map _ fun o => ?_
  refine Run.outcome_bind_maps (load_under e ctx endpoint name o) fun l => ?_
  exact Run.outcome_bind_map _ fun rows => congrArg Except.ok (l.answer_under name rows)

theorem turnPage_keyed {window : Window} {path : Option String} {fetched : Fetched}
    {records : List Record} {page : Entries PageMeta}
    (h : e.turnPage r window path fetched = .ok (records, page)) : Response.Keyed page := by
  unfold turnPage at h
  split at h
  · cases h
    exact .nil
  · obtain ⟨last, -, h⟩ := Except.map_eq_ok.mp h
    cases h
    exact .single path _

/-- A resource gives one continuation at most. -/
theorem getResource_keyed {ctx : Context} {endpoint : Endpoint} {path : Option String} {answer : Response}
    (h : (e.getResource ctx endpoint path).outcome = .ok answer) : Response.Keyed answer.page := by
  obtain ⟨o, l, rows, -, loads, -, rfl⟩ := outcome_getResource.mp h
  cases loads with
  | computed | one => exact .nil
  | list _ _ _ _ turned => exact turnPage_keyed turned

/-! Parts of an answer, each under its name -/

section gathered
variable {names : List String} {part : String → Option Response}

/-- The continuations that a part brings. -/
def partPages (part : String → Option Response) (name : String) : Entries PageMeta :=
  (part name).elim [] Response.page

theorem keyed_partPages (keyed : ∀ answer, part name = some answer → Response.Keyed answer.page) :
    Response.Keyed (partPages part name) := by
  unfold partPages
  cases h : part name with
  | none => exact .nil
  | some answer => exact keyed answer h

theorem perm_parts {full : String → String} (keyed : ∀ name ∈ names,
      Response.Keyed (Response.pagesUnder (full name) (partPages part name))) :
    (names.flatMap fun name =>
      ((part name).map (Response.under (full name))).elim [] Response.page).Perm
      (names.flatMap fun name => Response.pagesUnder (full name) (partPages part name)) := by
  refine List.Perm.flatMap_left names fun name hname => ?_
  have h := (keyed name hname).distinct
  unfold partPages at h ⊢
  cases hpart : part name with
  | none => exact .refl _
  | some answer =>
    rw [hpart] at h
    exact Entries.perm_ofList h

variable (plain : PlainNames names)
  (keyed : ∀ name ∈ names, ∀ answer, part name = some answer → Response.Keyed answer.page)
include plain keyed

theorem keyed_parts : Response.Keyed
    (names.flatMap fun name => Response.pagesUnder name (partPages part name)) :=
  Response.Keyed.flatMap plain.distinct (fun name hname => (plain.plain name hname).2)
    fun name hname => keyed_partPages (keyed name hname)

/-- The continuations of an answer are those of its parts, under their names. -/
theorem gathered_pages :
    (gathered names fun name => (part name).map (Response.under name)).page.Perm
      (names.flatMap fun name => Response.pagesUnder name (partPages part name)) := by
  have perm : (names.flatMap fun name =>
      ((part name).map (Response.under name)).elim [] Response.page).Perm
      (names.flatMap fun name => Response.pagesUnder name (partPages part name)) :=
    perm_parts fun name hname =>
      (keyed_partPages (keyed name hname)).under (plain.plain name hname).2
  have distinct := (keyed_parts plain keyed).distinct
  exact (Entries.perm_ofList ((perm.map Prod.fst).nodup_iff.mpr distinct)).trans perm

theorem gathered_keyed :
    Response.Keyed (gathered names fun name => (part name).map (Response.under name)).page :=
  (keyed_parts plain keyed).perm (gathered_pages plain keyed)

/-- Parts that are found behind the name of their node make up its answer under this name. -/
theorem gathered_under {outer : String} (undotted : '.' ∉ outer.toList) :
    (gathered names fun name => (part name).map (Response.under (dotted outer (some name)))) =
      (gathered names fun name => (part name).map (Response.under name)).under outer := by
  have within (name : String) : Response.pagesUnder (dotted outer (some name)) (partPages part name) =
      Response.pagesUnder outer (Response.pagesUnder name (partPages part name)) :=
    (Response.pagesUnder_pagesUnder ..).symm
  have perm : (names.flatMap fun name =>
      ((part name).map (Response.under (dotted outer (some name)))).elim [] Response.page).Perm
      (names.flatMap fun name =>
        Response.pagesUnder (dotted outer (some name)) (partPages part name)) :=
    perm_parts fun name hname => by
      rw [within]
      exact ((keyed_partPages (keyed name hname)).under (plain.plain name hname).2).under undotted
  have all : names.flatMap (fun name =>
      Response.pagesUnder (dotted outer (some name)) (partPages part name)) =
      Response.pagesUnder outer
        (names.flatMap fun name => Response.pagesUnder name (partPages part name)) := by
    simp only [within]
    exact List.map_flatMap.symm
  rw [all] at perm
  have gatheredUnder : (Response.pagesUnder outer
      (gathered names fun name => (part name).map (Response.under name)).page).Perm
      (Response.pagesUnder outer
        (names.flatMap fun name => Response.pagesUnder name (partPages part name))) :=
    (gathered_pages plain keyed).map _
  have distinct := ((gathered_keyed plain keyed).under undotted).distinct
  refine congrArg₂ Response.mk ?_ ?_
  · simp [gathered, Response.under, Option.map_map, Function.comp_def]
  · exact Entries.ofList_of_perm
      ((perm.trans gatheredUnder.symm).trans (Entries.perm_ofList distinct).symm)
      (Entries.sorted_ofList _)

end gathered

/-! Servers and spaces -/

/-- The names of the children of a server or a space. -/
def children (e : Engine) (q : Query) : List String :=
  match q.space with
  | none => e.server.spaces.keys
  | some name => (e.server.space? name).elim [] fun space => space.resources.keys

/-- What a child is in an answer: a link where it is merely taken, and what its own query answers. -/
def contribution (e : Engine) (request : Value) (q : Query) (name : String) : Option Response :=
  match q.childTake name with
  | some (.flag true) => some ⟨.str ("./" ++ name ++ "/"), []⟩
  | some (.nested state) => (e.execute (q.child name state) request).outcome.toOption
  | _ => none

/-- Every child that is taken with a nested state answers its own query. -/
def ChildrenAnswer (e : Engine) (request : Value) (q : Query) (names : List String) : Prop :=
  ∀ name ∈ names, ∀ state, q.childTake name = some (.nested state) →
    ∃ answer, (e.execute (q.child name state) request).outcome = .ok answer

/-- Children that are read under their names as they answer by themselves make up the answer of their
node. -/
theorem getChildren_under {get : Context → Option String → Run Response} {path : Option String}
    {names : List String} (asks : AsksChildren q) (plain : PlainNames names)
    (own : ∀ name ∈ names, ∀ state, q.childTake name = some (.nested state) →
      (get ⟨q.child name state, request⟩ (some (below path name))).outcome.toOption =
        (e.execute (q.child name state) request).outcome.toOption.map
          (Response.under (below path name))) {response : Response} :
    (getChildren get ⟨q, request⟩ path names).outcome = .ok response ↔
      e.ChildrenAnswer request q names ∧ response = gathered names fun name =>
        (e.contribution request q name).map (Response.under (below path name)) := by
  have part (name : String) (hname : name ∈ names) :
      ((∃ part, (getChild get ⟨q, request⟩ path name).outcome = .ok part) ↔
        ∀ state, q.childTake name = some (.nested state) →
          ∃ answer, (e.execute (q.child name state) request).outcome = .ok answer) ∧
      (getChild get ⟨q, request⟩ path name).outcome.toOption.getD none =
        (e.contribution request q name).map (Response.under (below path name)) := by
    rw [outcome_getChild get asks (plain.plain name hname), contribution]
    rcases htake : q.childTake name with _ | (_ | _) | state
    · simp [Except.toOption]
    · simp [Except.toOption]
    · simp [Except.toOption, Response.under, Response.pagesUnder, Entries.ofList]
    · have hown := own name hname state htake
      simp only [Option.some.injEq, Take.nested.injEq, forall_eq']
      rw [← hown]
      refine ⟨?_, ?_⟩
      · rw [← Except.isSome_toOption, ← Except.isSome_toOption, Except.toOption_map, Option.isSome_map,
          hown, Option.isSome_map]
      · rw [Except.toOption_map]
        cases (get ⟨q.child name state, request⟩ (some (below path name))).outcome.toOption <;> rfl
  have parts : (∀ name ∈ names, ∃ answer,
      (getChild get ⟨q, request⟩ path name).outcome = .ok answer) ↔
      e.ChildrenAnswer request q names := forall₂_congr fun name hname => (part name hname).1
  rw [getChildren_eq_ok, parts, gathered_congr fun name hname => (part name hname).2]

/-- What the children of a node bring are continuations under different keys, if their own answers are. -/
theorem contribution_keyed (own : ∀ state answer,
      (e.execute (q.child name state) request).outcome = .ok answer → Response.Keyed answer.page)
    (answer : Response) (h : e.contribution request q name = some answer) :
    Response.Keyed answer.page := by
  unfold contribution at h
  split at h
  · cases h
    exact .nil
  · exact own _ answer (Except.toOption_eq_some.mp h)
  · cases h

section reads
variable (named : e.server.IsPlain) (reads : q.action.getD .get = .get)
include reads

/-- The child of a space is a resource, and is read by itself as any resource. -/
theorem execute_resource {owner : String} (hspace : q.space = some owner) :
    e.execute (q.child name state) request =
      e.getResource ⟨q.child name state, request⟩ .resource none := by
  have targets : (q.child name state).endpoint = .resource := by simp [Query.endpoint, hspace]
  rw [execute_reads request (by rwa [Query.child_action]) (.inl targets), targets]

theorem contribution_keyed_space {owner : String} (hspace : q.space = some owner) (answer : Response) :
    e.contribution request q name = some answer → Response.Keyed answer.page :=
  contribution_keyed (fun state answer h => by
    rw [execute_resource reads hspace] at h
    exact getResource_keyed h) answer

include named

/-- A space answers if its children do, with their answers. -/
theorem getSpace_eq_ok (asks : AsksChildren q) {owner : String} (hspace : q.space = some owner)
    {space : Space} (found : e.server.space? owner = some space) (path : Option String)
    {response : Response} :
    (e.getSpace ⟨q, request⟩ owner path).outcome = .ok response ↔
      e.ChildrenAnswer request q space.resources.keys ∧
        response = gathered space.resources.keys fun name =>
          (e.contribution request q name).map (Response.under (below path name)) := by
  have finds : (liftM (e.findSpace owner) : Run Space).outcome = .ok space := by
    rw [findSpace, found]
    rfl
  unfold getSpace
  rw [Run.outcome_bind_ok finds]
  refine getChildren_under asks (named.resources found) fun name _ state _ => ?_
  rw [getResource_under, Except.toOption_map, execute_resource reads hspace]

/-- A space answers under a name what it answers by itself. -/
theorem getSpace_under (asks : AsksChildren q) {owner : String} (hspace : q.space = some owner)
    {outer : String} (undotted : '.' ∉ outer.toList) :
    (e.getSpace ⟨q, request⟩ owner (some outer)).outcome.toOption =
      (e.getSpace ⟨q, request⟩ owner none).outcome.toOption.map (Response.under outer) := by
  cases found : e.server.space? owner with
  | none =>
    unfold getSpace findSpace
    rw [found]
    rfl
  | some space =>
    have keyed : ∀ name ∈ space.resources.keys, ∀ answer, e.contribution request q name = some answer →
        Response.Keyed answer.page := fun name _ => contribution_keyed_space reads hspace
    have whole := gathered_under (named.resources found) keyed undotted
    ext response
    rw [Option.map_eq_some_iff]
    simp only [Except.toOption_eq_some, getSpace_eq_ok named reads asks hspace found]
    constructor
    · rintro ⟨answers, rfl⟩
      exact ⟨_, ⟨answers, rfl⟩, whole.symm⟩
    · rintro ⟨answer, ⟨answers, rfl⟩, rfl⟩
      exact ⟨answers, whole.symm⟩

theorem getSpace_keyed (asks : AsksChildren q) {owner : String} (hspace : q.space = some owner)
    {answer : Response} (h : (e.getSpace ⟨q, request⟩ owner none).outcome = .ok answer) :
    Response.Keyed answer.page := by
  cases found : e.server.space? owner with
  | none =>
    unfold getSpace findSpace at h
    rw [found] at h
    cases h
  | some space =>
    obtain ⟨-, rfl⟩ := (getSpace_eq_ok named reads asks hspace found none).mp h
    exact gathered_keyed (named.resources found) fun name _ => contribution_keyed_space reads hspace

omit named in
/-- A space is read by itself. -/
theorem execute_getSpace (asks : AsksChildren q) {owner : String} (hspace : q.space = some owner) :
    e.execute q request = e.getSpace ⟨q, request⟩ owner none := by
  obtain ⟨hresource, hrecord, hfield⟩ := asks
  have targets : q.endpoint = .space := by simp [Query.endpoint, hresource, hrecord, hfield, hspace]
  unfold execute get
  simp [reads, targets, hspace]

omit named in
/-- A server is read by itself. -/
theorem execute_getServer (asks : AsksChildren q) (hspace : q.space = none) :
    e.execute q request = e.getServer ⟨q, request⟩ := by
  obtain ⟨hresource, hrecord, hfield⟩ := asks
  have targets : q.endpoint = .server := by simp [Query.endpoint, hresource, hrecord, hfield, hspace]
  unfold execute get
  simp [reads, targets]

theorem contribution_keyed_server (hspace : q.space = none) (answer : Response) :
    e.contribution request q name = some answer → Response.Keyed answer.page :=
  contribution_keyed (fun state answer h => by
    have reads' : (q.child name state).action.getD .get = .get := reads
    have asks : AsksChildren (q.child name state) := asksChildren_child hspace
    have owned : (q.child name state).space = some name := by simp [hspace]
    rw [execute_getSpace reads' asks owned] at h
    exact getSpace_keyed named reads' asks owned h) answer

/-- A server or a space answers if its children do, with their answers. -/
theorem execute_eq_ok (request : Value) (asks : AsksChildren q)
    (known : ∀ owner, q.space = some owner → (e.server.space? owner).isSome) :
    PlainNames (e.children q) ∧
      (∀ name answer, e.contribution request q name = some answer → Response.Keyed answer.page) ∧
      ∀ response, (e.execute q request).outcome = .ok response ↔
        e.ChildrenAnswer request q (e.children q) ∧
          response = gathered (e.children q) fun name =>
            (e.contribution request q name).map (Response.under name) := by
  unfold children
  cases hspace : q.space with
  | none =>
    refine ⟨named.spaces, fun name => contribution_keyed_server named reads hspace,
      fun response => ?_⟩
    rw [execute_getServer reads asks hspace]
    refine getChildren_under asks named.spaces fun name hname state _ => ?_
    have reads' : (q.child name state).action.getD .get = .get := reads
    have asks' : AsksChildren (q.child name state) := asksChildren_child hspace
    have owned : (q.child name state).space = some name := by simp [hspace]
    rw [execute_getSpace reads' asks' owned]
    simp only [owned, Option.getD_some]
    exact getSpace_under named reads' asks' owned (named.spaces.plain name hname).2
  | some owner =>
    obtain ⟨space, found⟩ := Option.isSome_iff_exists.mp (known owner hspace)
    dsimp only
    rw [found]
    refine ⟨named.resources found, fun name => contribution_keyed_space reads hspace,
      fun response => ?_⟩
    rw [execute_getSpace reads asks hspace]
    exact getSpace_eq_ok named reads asks hspace found none

end reads

/-- A read of the server or of a space is made up of its children. It answers if and only if every
child that is taken with a nested state answers its own query; the data holds the children that are not
left out, with a link or with the data of the child's answer, and the continuations are those of the
children's answers, each found under the name of its child. -/
theorem execute_children (e : Engine) (named : e.server.IsPlain) (q : Query) (request : Value)
    (reads : q.action.getD .get = .get) (asks : q.endpoint = .server ∨ q.endpoint = .space)
    (known : ∀ owner, q.space = some owner → (e.server.space? owner).isSome) :
    ((∃ response, (e.execute q request).outcome = .ok response) ↔
      e.ChildrenAnswer request q (e.children q)) ∧
    ∀ response, (e.execute q request).outcome = .ok response →
      response.data = .obj ((e.children q).filterMap fun name =>
        (e.contribution request q name).map fun answer => (name, answer.data)) ∧
      Response.Keyed response.page ∧
      response.page.Perm ((e.children q).flatMap fun name =>
        Response.pagesUnder name (partPages (e.contribution request q) name)) := by
  obtain ⟨plain, keyed, answers⟩ :=
    execute_eq_ok named reads request (asksChildren_iff.mpr asks) known
  have keyed' := fun name (_ : name ∈ e.children q) => keyed name
  refine ⟨?_, fun response h => ?_⟩
  · simp only [answers, exists_and_left, exists_eq, and_true]
  · obtain ⟨-, rfl⟩ := (answers response).mp h
    refine ⟨?_, gathered_keyed plain keyed', gathered_pages plain keyed'⟩
    simp [gathered, Response.under, Option.map_map, Function.comp_def]

end Engine

namespace Shelf

theorem isPlain_library : library.server.IsPlain where
  spaces := ⟨by decide, by simpa [library, Entries.keys] using ⟨by decide, by decide⟩⟩
  resources := by
    intro name space found
    obtain ⟨-, h⟩ | ⟨-, h⟩ := ite_eq_iff.mp ((Entries.get?_cons _ _ name).symm.trans found)
    · cases h
      exact ⟨by decide, by simpa [Entries.keys] using ⟨by decide, by decide⟩⟩
    · cases h

/-- The library with the first of its books. -/
def glanced : Query where
  take := some [("library", .nested {
    take := some [("*", .nested { page := some { size := some 1 } })] })]

end Shelf

/-- A continuation of the books is found at the server, behind the names of their space and resource. -/
theorem Engine.execute_children_glanced :
    ∃ response, (Shelf.library.execute Shelf.glanced Shelf.asked.request).outcome = .ok response ∧
      Shelf.library.ChildrenAnswer Shelf.asked.request Shelf.glanced ["library"] ∧
      response.page.keys = ["data.library.book"] ∧ Response.Keyed response.page := by
  have keys : (Shelf.library.execute Shelf.glanced Shelf.asked.request).outcome.toOption.map
      (fun response => response.page.keys) = some ["data.library.book"] := by decide +kernel
  obtain ⟨response, h, hkeys⟩ := Option.map_eq_some_iff.mp keys
  have answered := Except.toOption_eq_some.mp h
  obtain ⟨children, whole⟩ := execute_children Shelf.library Shelf.isPlain_library Shelf.glanced
    Shelf.asked.request rfl (.inl rfl) (fun owner h => by cases h)
  exact ⟨response, answered, children.mp ⟨response, answered⟩, hkeys, (whole response answered).2.1⟩

end RecordGraph
