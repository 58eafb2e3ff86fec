import Mathlib.Data.List.Sort
import RecordGraph.Proofs.Graph.Build
import RecordGraph.Proofs.Value.Canonical

/-!
The fields of the resources of a graph. A graph is refused for the source of a field only, and the error
names the field. Otherwise the fields of each resource are told by its declaration: the id field first,
whether it is declared or not and wherever it is, then the others in the order of their names. Each is
found under its name, and is what is declared there. That fields are declared in the order of their
names holds of every declaration that is read.
-/
namespace RecordGraph

/-! Lists of fields -/

/-- The names of the fields are told by which they are, by the first of them and by the order of the
others. -/
theorem ResourceConfig.eq_fieldNames_iff {config : ResourceConfig} (sorted : config.fields.Sorted)
    {names : List String} : names = config.fieldNames ↔
      names.head? = some config.idName ∧ names.Nodup ∧ names.tail.Pairwise (· < ·) ∧
        ∀ name, name ∈ names ↔ name = config.idName ∨ name ∈ config.fields.keys := by
  have increasing : (config.fields.keys.filter (· != config.idName)).Pairwise (· < ·) :=
    (List.pairwise_map.mpr sorted).filter _
  constructor
  · rintro rfl
    exact ⟨rfl, config.nodup_fieldNames sorted.nodup, increasing, fun _ => config.mem_fieldNames⟩
  · rintro ⟨first, nodup, tail, mem⟩
    cases names with
    | nil => cases first
    | cons name names =>
      cases first
      refine congrArg (List.cons _) (tail.eq_of_mem_iff increasing fun name => ?_)
      have free := (List.nodup_cons.mp nodup).1
      rw [List.mem_filter, bne_iff_ne]
      constructor
      · intro hname
        have hne : name ≠ config.idName := fun h => free (h ▸ hname)
        exact ⟨((mem name).mp (List.mem_cons_of_mem _ hname)).resolve_left hne, hne⟩
      · rintro ⟨hname, hne⟩
        exact (List.mem_cons.mp ((mem name).mpr (.inr hname))).resolve_left hne

/-- A resource as it is declared, with a well-formed list of fields. -/
structure Resource.Follows (schema : Schema) (space name : String) (config : ResourceConfig)
    (r : Resource) : Prop where
  declared : r = declared space name config r.fields
  idFirst : ∃ f rest, r.fields = f :: rest ∧ f.name = config.idName ∧ r.idField? = some f
  nodup : (r.fields.map Field.name).Nodup
  mem_names (field : String) :
    field ∈ r.fields.map Field.name ↔ field = config.idName ∨ field ∈ config.fields.keys
  increasing : (r.fields.map Field.name).tail.Pairwise (· < ·)
  found : ∀ field ∈ r.fields.map Field.name, ∃ f, r.field? field = some f ∧
    f.Follows schema r.id config field (config.spec field)

namespace Resource
variable {schema : Schema} {space name : String} {config : ResourceConfig} {r : Resource}

theorem id_declared (h : r = declared space name config r.fields) : r.id = space ++ "." ++ name := by
  rw [h]
  rfl

theorem follows_of_build (sorted : config.fields.Sorted) (h : build schema space name config = .ok r) :
    r.Follows schema space name config := by
  have nodup := nodup_build sorted.nodup h
  obtain ⟨first, -, increasing, mem⟩ := (config.eq_fieldNames_iff sorted).mp (names_build sorted.nodup h)
  obtain ⟨declared, each⟩ := (build_eq_ok sorted.nodup).mp h
  refine ⟨declared, ?_, nodup, mem, increasing, fun field hfield => ?_⟩
  · obtain ⟨f, hf, hname⟩ : ∃ f, r.fields.head? = some f ∧ f.name = config.idName := by simpa using first
    obtain ⟨rest, hrest⟩ := List.head?_eq_some_iff.mp hf
    refine ⟨f, rest, hrest, hname, (field?_eq_some nodup).mpr ⟨List.mem_of_head? hf, ?_⟩⟩
    rw [hname, declared]
    rfl
  · obtain ⟨f, hf, rfl⟩ := List.mem_map.mp hfield
    obtain ⟨field, -, follows⟩ := each.exists_left hf
    refine ⟨f, (field?_eq_some nodup).mpr ⟨hf, rfl⟩, ?_⟩
    rw [id_declared declared, follows.name_eq]
    exact follows

theorem Follows.names_eq (h : r.Follows schema space name config) (sorted : config.fields.Sorted) :
    r.fields.map Field.name = config.fieldNames := by
  refine (config.eq_fieldNames_iff sorted).mpr ⟨?_, h.nodup, h.increasing, h.mem_names⟩
  obtain ⟨f, rest, hfields, hname, -⟩ := h.idFirst
  rw [hfields, ← hname]
  rfl

/-- What is built is what is declared, and nothing else is. -/
theorem build_eq_ok_iff_follows (sorted : config.fields.Sorted) :
    build schema space name config = .ok r ↔ r.Follows schema space name config := by
  refine ⟨follows_of_build sorted, fun h => (build_eq_ok sorted.nodup).mpr ⟨h.declared, ?_⟩⟩
  -- the names tell the list, so that the field at a place is the one that is found under its name
  rw [← h.names_eq sorted, List.forall₂_map_left_iff, List.forall₂_same, ← id_declared h.declared]
  intro f hf
  obtain ⟨g, found, follows⟩ := h.found f.name (List.mem_map_of_mem hf)
  cases ((field?_eq_some h.nodup).mpr ⟨hf, rfl⟩).symm.trans found
  exact follows

end Resource

/-! Servers -/

structure Space.Follows (schema : Schema) (name : String) (config : SpaceConfig) (s : Space) : Prop where
  name_eq : s.name = name
  resources : Entries.Paired (fun key resource r => r.Follows schema name key resource)
    config.resources s.resources

/-- A server has the spaces that are declared, and these the resources. -/
structure Server.Follows (schema : Schema) (config : ServerConfig) (s : Server) : Prop where
  url_eq : s.url = config.url
  spaces : Entries.Paired (fun key space s => s.Follows schema key space) config.spaces s.spaces

/-- The fields of each resource are declared in the order of their names, as they are in a map. -/
def ServerConfig.InOrder (config : ServerConfig) : Prop :=
  ∀ space ∈ config.spaces, ∀ resource ∈ space.2.resources, resource.2.fields.Sorted

namespace Server
variable {schema : Schema} {config : ServerConfig} {s : Server}

theorem build_eq_ok_iff_follows (ordered : config.InOrder) :
    build schema config = .ok s ↔ s.Follows schema config := by
  have space : ∀ d ∈ config.spaces, ∀ s : Space,
      Space.build schema d.1 d.2 = .ok s ↔ s.Follows schema d.1 d.2 := by
    intro d hd s
    rw [Space.build_eq_ok, Entries.paired_congr fun resource hresource r =>
      Resource.build_eq_ok_iff_follows (ordered d hd resource hresource)]
    exact ⟨fun ⟨name, each⟩ => ⟨name, each⟩, fun ⟨name, each⟩ => ⟨name, each⟩⟩
  rw [build_eq_ok, Entries.paired_congr space]
  exact ⟨fun ⟨url, each⟩ => ⟨url, each⟩, fun ⟨url, each⟩ => ⟨url, each⟩⟩

end Server

/-! Declarations that are read -/

theorem Fields.canonical_of? {names : List String} {v : Value} (canonical : v.Canonical) {fs : Fields}
    (h : of? names v = some fs) {name : String} {w : Value} (hw : fs name = some w) : w.Canonical := by
  cases v with
  | obj es =>
    cases h
    exact (Value.canonical_obj_iff.mp canonical).2 _ (Entries.mem_of_get? hw)
  | arr xs =>
    rw [of?] at h
    split at h
    · cases h
      have hmem : (name, w) ∈ names.zip xs := Entries.mem_of_get? hw
      exact Value.canonical_arr_iff.mp canonical w (List.of_mem_zip hmem).2
    · cases h
  | _ => cases h

theorem Value.sorted_entriesOf? {α : Type} {read : Value → Option α} {v : Value} (canonical : v.Canonical)
    {es : Entries α} (h : v.entriesOf? read = some es) :
    es.Sorted ∧ ∀ e ∈ es, ∃ w : Value, w.Canonical ∧ read w = some e.2 := by
  cases v with
  | obj entries =>
    obtain ⟨sorted, values⟩ := Value.canonical_obj_iff.mp canonical
    have each : List.Forall₂ (fun e f => e.1 = f.1 ∧ read e.2 = some f.2) entries es := by
      refine (Option.mapM_eq_some.mp h).imp fun e f hread => ?_
      obtain ⟨a, ha, rfl⟩ := Option.map_eq_some_iff.mp hread
      exact ⟨rfl, ha⟩
    refine ⟨sorted.of_keys (Entries.keys_of_forall₂ (each.imp fun _ _ h => h.1)), fun e he => ?_⟩
    obtain ⟨w, hw, -, hread⟩ := each.exists_left he
    exact ⟨w.2, values w hw, hread⟩
  | _ => cases h

/-- The entries of a declaration that may be left out. -/
theorem Fields.sorted_orDefault {α : Type} {read : Value → Option α} {fs : Fields} {name : String}
    (canonical : ∀ w, fs name = some w → w.Canonical) {es : Entries α}
    (h : fs.orDefault name [] (Value.entriesOf? read) = some es) :
    es.Sorted ∧ ∀ e ∈ es, ∃ w : Value, w.Canonical ∧ read w = some e.2 := by
  rw [orDefault] at h
  split at h
  · cases h
    exact ⟨List.Pairwise.nil, by simp⟩
  · rename_i w hw
    exact Value.sorted_entriesOf? (canonical w hw) h

theorem ResourceConfig.sorted_ofValue? {v : Value} (canonical : v.Canonical) {config : ResourceConfig}
    (h : ofValue? v = some config) : config.fields.Sorted := by
  obtain ⟨fs, hfs, h⟩ := Option.bind_eq_some_iff.mp h
  simp only [ofFields?, Option.bind_eq_bind, Option.bind_eq_some_iff] at h
  obtain ⟨_, -, _, -, _, -, fields, hfields, _, -, _, -, h⟩ := h
  cases h
  exact (Fields.sorted_orDefault (fun _ => Fields.canonical_of? canonical hfs) hfields).1

/-- What is read of a value whose maps are in order is declared in order. -/
theorem ServerConfig.inOrder_ofValue? {v : Value} (canonical : v.Canonical) {config : ServerConfig}
    (h : ofValue? v = some config) : config.InOrder := by
  obtain ⟨fs, hfs, h⟩ := Option.bind_eq_some_iff.mp h
  simp only [ofFields?, Option.bind_eq_bind, Option.bind_eq_some_iff] at h
  obtain ⟨_, -, spaces, hspaces, h⟩ := h
  cases h
  rintro ⟨name, space⟩ hspace resource hresource
  obtain ⟨v, canonical, h⟩ :=
    (Fields.sorted_orDefault (fun _ => Fields.canonical_of? canonical hfs) hspaces).2 _ hspace
  simp only [SpaceConfig.ofValue?, Option.bind_eq_bind, Option.bind_eq_some_iff] at h
  obtain ⟨fs, hfs, resources, hresources, h⟩ := h
  cases h
  obtain ⟨v, canonical, h⟩ :=
    (Fields.sorted_orDefault (fun _ => Fields.canonical_of? canonical hfs) hresources).2 resource hresource
  exact ResourceConfig.sorted_ofValue? canonical h

/-! Faults -/

/-- An error that names a field of a declaration and tells what is wrong with its source. -/
def ServerConfig.Faults (config : ServerConfig) (e : QueryError) : Prop :=
  ∃ space ∈ config.spaces, ∃ resource ∈ space.2.resources, ∃ field ∈ resource.2.fields,
    ∃ fault, SourceFault.Of field.1 field.2.source fault ∧
      e = .misconfigured (.fieldSource (space.1 ++ "." ++ resource.1) fault)

theorem Resource.exists_fault {schema : Schema} {space name : String} {config : ResourceConfig}
    {e : QueryError} (h : build schema space name config = .error e) : ∃ field ∈ config.fields,
      ∃ fault, SourceFault.Of field.1 field.2.source fault ∧
        e = .misconfigured (.fieldSource (space ++ "." ++ name) fault) := by
  rw [build_eq, Except.map_eq_error] at h
  obtain ⟨d, hd, h⟩ := Except.exists_mem_of_mapM_error h
  obtain ⟨fault, hfault, rfl⟩ := Except.mapError_eq_error.mp h
  rw [Field.build_eq_error] at hfault
  rcases List.mem_cons.mp hd with rfl | hd
  · cases held : config.fields.lookup config.idName with
    | none =>
      -- an id field that is not declared is stored under its own name
      rw [held] at hfault
      cases hfault
    | some spec =>
      rw [held] at hfault
      exact ⟨_, Entries.mem_of_get? held, fault, hfault, rfl⟩
  · exact ⟨d, List.mem_of_mem_filter hd, fault, hfault, rfl⟩

/-- No fault is passed over. -/
theorem Resource.Follows.declares {schema : Schema} {space name : String} {config : ResourceConfig}
    {r : Resource} (h : r.Follows schema space name config) (sorted : config.fields.Sorted)
    {field : String × FieldConfig} (hfield : field ∈ config.fields) :
    ∃ source, FieldSource.DeclaredBy field.1 field.2.source source := by
  have named : field.1 ∈ r.fields.map Field.name :=
    (h.mem_names field.1).mpr (.inr (List.mem_map_of_mem hfield))
  have held : config.spec field.1 = field.2 := by
    rw [ResourceConfig.spec, Entries.get?_of_mem sorted.nodup hfield, Option.getD_some]
  obtain ⟨f, -, follows⟩ := h.found field.1 named
  exact ⟨f.source, held ▸ follows.source⟩

namespace Server
variable {schema : Schema} {config : ServerConfig}

/-- Where a graph follows its declaration, no source of a field is at fault. -/
theorem Follows.not_faults {s : Server} (h : s.Follows schema config) (ordered : config.InOrder)
    (e : QueryError) : ¬config.Faults e := by
  rintro ⟨d, hd, resource, hresource, field, hfield, fault, faulty, -⟩
  obtain ⟨space, -, -, built⟩ := h.spaces.flip.exists_left hd
  obtain ⟨r, -, -, follows⟩ := built.resources.flip.exists_left hresource
  obtain ⟨source, declares⟩ := follows.declares (ordered d hd resource hresource) hfield
  cases (FieldSource.declared_eq_ok.mpr declares).symm.trans (FieldSource.declared_eq_error.mpr faulty)

theorem faults_of_build_error {e : QueryError} (h : build schema config = .error e) : config.Faults e := by
  rw [build, Except.bind_pure, Except.map_eq_error] at h
  obtain ⟨space, hspace, h⟩ := Except.exists_mem_of_mapM_error h
  rw [Except.map_eq_error, Space.build, Except.bind_pure, Except.map_eq_error] at h
  obtain ⟨resource, hresource, h⟩ := Except.exists_mem_of_mapM_error h
  exact ⟨space, hspace, resource, hresource, Resource.exists_fault (Except.map_eq_error.mp h)⟩

/-- A graph is refused exactly for the faults of its fields, and what is built otherwise is what is
declared, with well-formed lists of fields. -/
theorem build_follows (schema : Schema) (config : ServerConfig) (ordered : config.InOrder) :
    ((∃ e, build schema config = .error e) ↔ ∃ e, config.Faults e) ∧
      (∀ e, build schema config = .error e → config.Faults e) ∧
      ∀ s, build schema config = .ok s ↔ s.Follows schema config := by
  refine ⟨⟨fun ⟨e, h⟩ => ⟨e, faults_of_build_error h⟩, fun ⟨e, faults⟩ => ?_⟩,
    fun e => faults_of_build_error, fun s => build_eq_ok_iff_follows ordered⟩
  cases hbuild : build schema config with
  | error e' => exact ⟨e', rfl⟩
  | ok s => exact absurd faults (((build_eq_ok_iff_follows ordered).mp hbuild).not_faults ordered e)

end Server

/-! Books, known by a number that is one of their fields, and shelves that declare nothing -/

namespace Catalogue

def declaration (books : List (String × Value)) : Value :=
  .node "spaces" (.node "library" (.node "resources" (.obj [
    ("book", .obj [("source", .str "books"), ("id", .str "number"), ("fields", .obj books)]),
    ("shelf", .obj [])])))

def config (books : List (String × Value)) : ServerConfig :=
  (ServerConfig.ofValue? (declaration books).canonical).getD {}

theorem inOrder_config (books : List (String × Value)) : (config books).InOrder := by
  rw [config]
  cases h : ServerConfig.ofValue? (declaration books).canonical with
  | none => simp [ServerConfig.InOrder]
  | some config => exact ServerConfig.inOrder_ofValue? (Value.canonical_canonical _) h

def books : List (String × Value) :=
  [("title", .str "name"), ("year", .node "type" (.str "integer")),
    ("number", .node "source" (.str "isbn")), ("author", .obj [])]

/-- No two books are stored under one name. -/
def schema : Schema := fun collection path =>
  if collection = "books" ∧ path = "name" then
    some { type := .str "string", default := none, nullable := false, unique := true, indexed := true }
  else none

/-- The fields of the resources, each with its type and whether its values are unique. -/
def shown (s : Server) : List (List (String × String × Bool)) :=
  s.spaces.flatMap fun space => space.2.resources.map fun r => r.2.fields.map fun f =>
    (f.name, f.type.str?.getD "", f.unique)

/-- Books whose title is stored nowhere. -/
def untitled : List (String × Value) := [("title", .str ""), ("number", .str "isbn")]

end Catalogue

/-- Books have their number first, and shelves the id that they do not declare; books without a place for
their titles are refused. -/
theorem Server.build_follows_books :
    ((Catalogue.config Catalogue.books).InOrder ∧
      ∃ s, build Catalogue.schema (Catalogue.config Catalogue.books) = .ok s ∧
        s.Follows Catalogue.schema (Catalogue.config Catalogue.books) ∧
        Catalogue.shown s = [
          [("number", "any", true), ("author", "any", false), ("title", "string", true),
            ("year", "integer", false)],
          [("id", "any", true)]]) ∧
      (Catalogue.config Catalogue.untitled).InOrder ∧
        ∃ e, build Catalogue.schema (Catalogue.config Catalogue.untitled) = .error e ∧
          (Catalogue.config Catalogue.untitled).Faults e ∧
          e.message = "resource misconfigured: library.book.title: empty source" := by
  have shown : (build Catalogue.schema (Catalogue.config Catalogue.books)).toOption.map Catalogue.shown =
      some [
        [("number", "any", true), ("author", "any", false), ("title", "string", true),
          ("year", "integer", false)],
        [("id", "any", true)]] := by decide +kernel
  have refused : (match build Catalogue.schema (Catalogue.config Catalogue.untitled) with
      | .ok _ => none
      | .error e => some e.message) = some "resource misconfigured: library.book.title: empty source" := by
    decide +kernel
  obtain ⟨s, hs, hshown⟩ := Option.map_eq_some_iff.mp shown
  have built := Except.toOption_eq_some.mp hs
  have titled := build_follows Catalogue.schema _ (Catalogue.inOrder_config Catalogue.books)
  have untitled := build_follows Catalogue.schema _ (Catalogue.inOrder_config Catalogue.untitled)
  refine ⟨⟨Catalogue.inOrder_config _, s, built, (titled.2.2 s).mp built, hshown⟩,
    Catalogue.inOrder_config _, ?_⟩
  cases hbuild : build Catalogue.schema (Catalogue.config Catalogue.untitled) with
  | ok s =>
    rw [hbuild] at refused
    cases refused
  | error e =>
    rw [hbuild] at refused
    exact ⟨e, rfl, untitled.2.1 e hbuild, Option.some.inj refused⟩

end RecordGraph
