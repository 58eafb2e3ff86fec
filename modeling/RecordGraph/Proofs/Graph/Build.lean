import Mathlib.Data.List.Nodup
import RecordGraph.Graph.Server
import RecordGraph.Proofs.Entries
import RecordGraph.Proofs.Outcome
import RecordGraph.Proofs.Text.Pieces

/-!
Graphs as they are built. What a field becomes is told by its own declaration, by the resource it is in
and by what a schema knows of it. The fields of a resource have the names they are declared under, so
that they differ in their names.
-/
theorem List.find?_eq_some_of_unique {α : Type} {p : α → Bool} {l : List α} {a : α}
    (unique : ∀ a ∈ l, ∀ b ∈ l, p a → p b → a = b) : l.find? p = some a ↔ a ∈ l ∧ p a := by
  refine ⟨fun h => ⟨List.mem_of_find?_eq_some h, List.find?_some h⟩, fun ⟨ha, hp⟩ => ?_⟩
  cases hfind : l.find? p with
  | none => exact absurd hp (List.find?_eq_none.mp hfind a ha)
  | some b => rw [unique b (List.mem_of_find?_eq_some hfind) a ha (List.find?_some hfind) hp]

namespace RecordGraph

/-! Sources -/

/-- What is read where a field declares its source. -/
inductive FieldSource.DeclaredBy (field : String) : Option Value → FieldSource → Prop
  | absent : DeclaredBy field none (.path field)
  | null : DeclaredBy field (some .null) (.path field)
  | context (path : String) : DeclaredBy field (some (.str ("." ++ path))) (.context path)
  | path {path : String} (filled : path ≠ "") (stored : path.toList.head? ≠ some '.') :
    DeclaredBy field (some (.str path)) (.path path)
  | expression (es : Entries Value) : DeclaredBy field (some (.obj es)) (.expression (.obj es))

/-- Why nothing can be read: the source that a field declares is an empty text, or it is neither null
nor a text nor a map. -/
inductive SourceFault.Of (field : String) : Option Value → SourceFault → Prop
  | empty : Of field (some (.str "")) (.empty field)
  | invalid {v : Value} (given : v.isNull = false) (untexted : v.str? = none) (mapless : v.obj? = none) :
    Of field (some v) (.invalid field v)

namespace FieldSource
variable {field : String} {source : Option Value}

theorem declared_cases (field : String) (source : Option Value) :
    (∃ s, declared field source = .ok s ∧ DeclaredBy field source s) ∨
      ∃ fault, declared field source = .error fault ∧ fault.Of field source := by
  match source with
  | none => exact .inl ⟨_, rfl, .absent⟩
  | some .null => exact .inl ⟨_, rfl, .null⟩
  | some (.obj es) => exact .inl ⟨_, rfl, .expression es⟩
  | some (.bool _) | some (.num _) | some (.arr _) => exact .inr ⟨_, rfl, .invalid rfl rfl rfl⟩
  | some (.str s) =>
    by_cases filled : s = ""
    · subst filled
      exact .inr ⟨_, rfl, .empty⟩
    left
    rw [declared, if_neg (by simpa using filled)]
    cases rooted : Text.afterChar? '.' s with
    | none => exact ⟨_, rfl, .path filled (Text.afterChar?_eq_none.mp rooted)⟩
    | some path =>
      have hs : s = "." ++ path := by simp [← String.toList_inj, Text.afterChar?_eq_some.mp rooted]
      subst hs
      exact ⟨_, rfl, .context path⟩

theorem declared_eq_ok {s : FieldSource} : declared field source = .ok s ↔ DeclaredBy field source s := by
  constructor
  · intro h
    rcases declared_cases field source with ⟨t, ht, declares⟩ | ⟨fault, hfault, -⟩
    · cases ht.symm.trans h
      exact declares
    · cases hfault.symm.trans h
  · rintro (_ | _ | path | ⟨filled, stored⟩ | es)
    · rfl
    · rfl
    · have rooted : Text.afterChar? '.' ("." ++ path) = some path := by simp [Text.afterChar?_eq_some]
      rw [declared, if_neg (by simp), rooted]
    · rw [declared, if_neg (by simpa using filled), Text.afterChar?_eq_none.mpr stored]
    · rfl

theorem declared_eq_error {fault : SourceFault} :
    declared field source = .error fault ↔ fault.Of field source := by
  constructor
  · intro h
    rcases declared_cases field source with ⟨s, hs, -⟩ | ⟨found, hfound, faulty⟩
    · cases hs.symm.trans h
    · cases hfound.symm.trans h
      exact faulty
  · rintro (_ | @⟨v, given, untexted, mapless⟩)
    · rfl
    · cases v with
      | null => cases given
      | bool | num | arr => rfl
      | str => cases untexted
      | obj => cases mapless

end FieldSource

/-! Fields -/

/-- What is taken of a field that no schema knows. -/
def Described.unknown (isId : Bool) : Described where
  type := .str "any"
  default := none
  nullable := false
  unique := isId
  indexed := isId

namespace FieldConfig

/-- What is known of a field: what a schema tells where the type is left open and a collection is read. -/
def known (spec : FieldConfig) (schema : Schema) (collection : Option String) (source : FieldSource)
    (isId : Bool) : Described :=
  let told := if spec.type.isSome then none
    else collection.bind fun name => source.storagePath?.bind (schema name)
  told.getD (.unknown isId)

/-- A field as it is declared, with what is known of it where the declaration leaves something open. -/
def completed (spec : FieldConfig) (owner name : String) (source : FieldSource) (known : Described) :
    Field where
  name := name
  owner := owner
  type := spec.type.getD known.type
  source := source
  isLazy := spec.isLazy
  can := spec.can
  depends := spec.depends
  inverse := spec.inverse
  default := spec.default.or known.default
  unique := spec.unique.getD known.unique
  indexed := known.indexed
  nullable := spec.nullable.getD known.nullable
  description := spec.description

end FieldConfig

/-- A field is what is declared under its name. -/
structure Field.Follows (schema : Schema) (owner : String) (config : ResourceConfig) (name : String)
    (spec : FieldConfig) (f : Field) : Prop where
  source : FieldSource.DeclaredBy name spec.source f.source
  completed : f = spec.completed owner name f.source
    (spec.known schema config.source f.source (name == config.idName))

namespace Field
variable {schema : Schema} {owner : String} {config : ResourceConfig} {name : String} {spec : FieldConfig}

theorem build_eq : build schema owner config name spec =
    (FieldSource.declared name spec.source).map fun source =>
      spec.completed owner name source (spec.known schema config.source source (name == config.idName)) := by
  unfold build FieldConfig.known FieldConfig.completed
  cases FieldSource.declared name spec.source with
  | error fault => rfl
  | ok source =>
    -- a schema is asked only if the type is open, and the answer completes the rest in the same way
    refine congrArg Except.ok ?_
    cases spec.type with
    | some type => simp [Described.unknown]
    | none =>
      cases config.source with
      | none => simp [Described.unknown]
      | some collection =>
        cases hpath : source.storagePath? with
        | none => simp [hpath, Described.unknown]
        | some path => cases htold : schema collection path <;> simp [hpath, htold, Described.unknown]

theorem build_eq_ok {f : Field} : build schema owner config name spec = .ok f ↔
    f.Follows schema owner config name spec := by
  rw [build_eq, Except.map_eq_ok]
  constructor
  · rintro ⟨source, hsource, rfl⟩
    exact ⟨FieldSource.declared_eq_ok.mp hsource, rfl⟩
  · rintro ⟨hsource, completed⟩
    exact ⟨f.source, FieldSource.declared_eq_ok.mpr hsource, completed.symm⟩

theorem build_eq_error {fault : SourceFault} : build schema owner config name spec = .error fault ↔
    fault.Of name spec.source := by
  rw [build_eq, Except.map_eq_error, FieldSource.declared_eq_error]

theorem Follows.name_eq {f : Field} (h : f.Follows schema owner config name spec) : f.name = name := by
  rw [h.completed]
  rfl

end Field

/-! Resources -/

namespace ResourceConfig
variable {config : ResourceConfig}

/-- What is declared under a name; the id field need not be. -/
def spec (config : ResourceConfig) (name : String) : FieldConfig := (config.fields.get? name).getD {}

/-- The names of the fields, that of the id field first. -/
def fieldNames (config : ResourceConfig) : List String :=
  config.idName :: config.fields.keys.filter (· != config.idName)

theorem ordered_eq (nodup : config.fields.keys.Nodup) :
    config.ordered = config.fieldNames.map fun name => (name, config.spec name) := by
  have others : (config.fields.filter fun d => d.1 != config.idName) =
      (config.fields.keys.filter (· != config.idName)).map fun name => (name, config.spec name) := by
    rw [Entries.keys, List.filter_map, List.map_map]
    refine (List.map_id _).symm.trans (List.map_congr_left fun d hd => ?_)
    have held : config.fields.get? d.1 = some d.2 := Entries.get?_of_mem nodup (List.mem_of_mem_filter hd)
    simp [spec, held]
  exact congrArg (List.cons _) others

theorem nodup_fieldNames (nodup : config.fields.keys.Nodup) : config.fieldNames.Nodup :=
  List.nodup_cons.mpr ⟨by simp, nodup.filter _⟩

theorem mem_fieldNames {name : String} :
    name ∈ config.fieldNames ↔ name = config.idName ∨ name ∈ config.fields.keys := by
  simp only [fieldNames, List.mem_cons, List.mem_filter, bne_iff_ne]
  tauto

end ResourceConfig

namespace Resource
variable {schema : Schema} {space name : String} {config : ResourceConfig} {r : Resource}

/-- The resource that is declared, with its fields. -/
def declared (space name : String) (config : ResourceConfig) (fields : List Field) : Resource where
  name := name
  space := space
  source := config.source
  singleton := config.singleton
  idName := config.idName
  fields := fields
  can := config.can
  description := config.description

theorem build_eq : build schema space name config =
    (config.ordered.mapM fun d => (Field.build schema (space ++ "." ++ name) config d.1 d.2).mapError
      fun fault => QueryError.misconfigured (.fieldSource (space ++ "." ++ name) fault)).map
        (declared space name config) := by
  rw [build, Except.bind_pure]
  refine congrArg (Except.map _) (Except.mapM_congr fun d _ => ?_)
  obtain ⟨field, spec⟩ := d
  dsimp only
  cases Field.build schema (space ++ "." ++ name) config field spec <;> rfl

/-- The fields are built one by one. -/
theorem build_eq_ok (nodup : config.fields.keys.Nodup) : build schema space name config = .ok r ↔
    r = declared space name config r.fields ∧ List.Forall₂ (fun field f =>
      f.Follows schema (space ++ "." ++ name) config field (config.spec field)) config.fieldNames r.fields := by
  simp only [build_eq, Except.map_eq_ok, Except.mapM_eq_ok, Except.mapError_eq_ok, Field.build_eq_ok,
    config.ordered_eq nodup, List.forall₂_map_left_iff]
  constructor
  · rintro ⟨fields, each, rfl⟩
    exact ⟨rfl, each⟩
  · rintro ⟨hr, each⟩
    exact ⟨r.fields, each, hr.symm⟩

theorem names_build (nodup : config.fields.keys.Nodup) (h : build schema space name config = .ok r) :
    r.fields.map Field.name = config.fieldNames := by
  have each := ((build_eq_ok nodup).mp h).2
  rw [← List.forall₂_eq_eq_eq, List.forall₂_map_left_iff]
  exact (each.imp fun _ _ follows => follows.name_eq).flip

/-- The fields of a resource that was built differ in their names. -/
theorem nodup_build (nodup : config.fields.keys.Nodup) (h : build schema space name config = .ok r) :
    (r.fields.map Field.name).Nodup :=
  names_build nodup h ▸ config.nodup_fieldNames nodup

/-- Where fields differ in their names, each is found under its own. -/
theorem field?_eq_some (nodup : (r.fields.map Field.name).Nodup) {field : String} {f : Field} :
    r.field? field = some f ↔ f ∈ r.fields ∧ f.name = field := by
  rw [field?, List.find?_eq_some_of_unique, beq_iff_eq]
  intro f hf g hg hfname hgname
  rw [beq_iff_eq] at hfname hgname
  exact List.inj_on_of_nodup_map nodup hf hg (hfname.trans hgname.symm)

end Resource

/-! Spaces and servers -/

namespace Entries
variable {α β : Type}

/-- Maps of the same keys, whose values are related key by key. -/
def Paired (R : String → α → β → Prop) : Entries α → Entries β → Prop :=
  List.Forall₂ fun e f => e.1 = f.1 ∧ R e.1 e.2 f.2

theorem paired_congr {R S : String → α → β → Prop} {es : Entries α}
    (h : ∀ e ∈ es, ∀ y, R e.1 e.2 y ↔ S e.1 e.2 y) {fs : Entries β} : Paired R es fs ↔ Paired S es fs := by
  induction es generalizing fs with
  | nil => simp [Paired]
  | cons e es ih =>
    rw [List.forall_mem_cons] at h
    simp only [Paired, List.forall₂_cons_left_iff, h.1] at ih ⊢
    simp only [ih h.2]

theorem mapM_eq_ok {ε : Type} {f : String → α → Except ε β} {es : Entries α} {fs : Entries β} :
    (es.mapM fun e => (f e.1 e.2).map (e.1, ·)) = .ok fs ↔ Paired (fun key x y => f key x = .ok y) es fs := by
  have entry (e : String × α) (p : String × β) :
      (f e.1 e.2).map (e.1, ·) = .ok p ↔ e.1 = p.1 ∧ f e.1 e.2 = .ok p.2 := by
    rw [Except.map_eq_ok]
    constructor
    · rintro ⟨y, hy, rfl⟩
      exact ⟨rfl, hy⟩
    · rintro ⟨hkey, hy⟩
      exact ⟨p.2, hy, Prod.ext hkey rfl⟩
  simp only [Except.mapM_eq_ok, entry, Paired]

end Entries

theorem Space.build_eq_ok {schema : Schema} {name : String} {config : SpaceConfig} {s : Space} :
    build schema name config = .ok s ↔ s.name = name ∧
      Entries.Paired (fun key resource r => Resource.build schema name key resource = .ok r)
        config.resources s.resources := by
  rw [build, Except.bind_pure, Except.map_eq_ok]
  simp only [Entries.mapM_eq_ok]
  constructor
  · rintro ⟨resources, each, rfl⟩
    exact ⟨rfl, each⟩
  · rintro ⟨rfl, each⟩
    exact ⟨s.resources, each, rfl⟩

theorem Server.build_eq_ok {schema : Schema} {config : ServerConfig} {s : Server} :
    build schema config = .ok s ↔ s.url = config.url ∧
      Entries.Paired (fun key space s => Space.build schema key space = .ok s) config.spaces s.spaces := by
  rw [build, Except.bind_pure, Except.map_eq_ok]
  simp only [Entries.mapM_eq_ok]
  constructor
  · rintro ⟨spaces, each, rfl⟩
    exact ⟨rfl, each⟩
  · rintro ⟨hurl, each⟩
    exact ⟨s.spaces, each, by rw [← hurl]⟩

/-- No resource of a declaration declares a field twice, as its fields are a map. -/
def ServerConfig.Distinct (config : ServerConfig) : Prop :=
  ∀ space ∈ config.spaces, ∀ resource ∈ space.2.resources, resource.2.fields.keys.Nodup

namespace Server

/-- The graph of some declaration. -/
def Built (s : Server) : Prop :=
  ∃ (schema : Schema) (config : ServerConfig), config.Distinct ∧ build schema config = .ok s

/-- In a graph that was built, the fields of each resource differ in their names. -/
theorem Built.nodup {s : Server} (h : s.Built) {space : String × Space} (hspace : space ∈ s.spaces)
    {resource : String × Resource} (hresource : resource ∈ space.2.resources) :
    (resource.2.fields.map Field.name).Nodup := by
  obtain ⟨schema, config, distinct, h⟩ := h
  obtain ⟨spaceConfig, hconfig, -, hspace⟩ := (build_eq_ok.mp h).2.exists_left hspace
  obtain ⟨declared, hdeclared, -, hbuilt⟩ := (Space.build_eq_ok.mp hspace).2.exists_left hresource
  exact Resource.nodup_build (distinct _ hconfig _ hdeclared) hbuilt

/-- The graph of a declaration, with nothing known of its collections. -/
def declared (config : ServerConfig) : Server := (build (fun _ _ => none) config).toOption.getD {}

theorem built_declared {config : ServerConfig} (distinct : config.Distinct)
    (builds : (build (fun _ _ => none) config).toOption.isSome) : (declared config).Built :=
  ⟨fun _ _ => none, config, distinct, Except.toOption_getD (Except.isSome_toOption.mp builds)⟩

end Server
end RecordGraph
