import RecordGraph.Predicate.Storage
import RecordGraph.Proofs.Predicate.Formula

/-!
Storage paths keep the meaning of a settled formula. Read by storage paths, a stored record shows a
formula the same values as its view, in which they stand under the names of the fields.
-/
namespace RecordGraph

/-- A stored record as formulas see it: the value of every stored field, under its name. -/
def Resource.view (r : Resource) (record : Record) : Record :=
  r.fields.filterMap fun f => f.source.storagePath?.map fun path =>
    (f.name, (record.read path).getD .null)

/-! Reading records -/

theorem ne_empty_of_pieces {path : String} (h : "" ∉ Text.pieces '.' path) : path ≠ "" := by
  rintro rfl
  exact h (by simp [Text.pieces_of_not_mem])

theorem afterChar?_of_pieces {path : String} (h : "" ∉ Text.pieces '.' path) :
    Text.afterChar? '.' path = none := by
  cases hp : Text.afterChar? '.' path with
  | none => rfl
  | some rest =>
    have first : Text.pieces '.' path = "" :: Text.pieces '.' rest :=
      Text.pieces_of_append (Text.afterChar?_eq_some.mp hp) (by simp)
    simp [first] at h

theorem Value.lookup_of_ne_empty {path : String} (h : path ≠ "") (v : Value) :
    v.lookup path = v.descend (Text.pieces '.' path) := by
  simp [Value.lookup, h]

theorem Value.lookup_of_not_mem {name : String} (undotted : '.' ∉ name.toList) (h : name ≠ "")
    (v : Value) : v.lookup name = v.child? name := by
  rw [Value.lookup_of_ne_empty h, Text.pieces_of_not_mem undotted]
  cases hv : v.child? name <;> simp [Value.descend, hv]

/-- Reading a record is looking up a path in it. -/
theorem Record.read_eq_lookup (record : Record) {path : String} (h : "" ∉ Text.pieces '.' path) :
    record.read path = (Value.obj record).lookup path := by
  obtain ⟨hs, undotted⟩ | ⟨head, rest, hs, happ, hhead⟩ := Text.splitFirst_cases '.' path
  · rw [Record.read, hs, Value.lookup_of_not_mem undotted (ne_empty_of_pieces h), Value.child?]
  · have split := Text.pieces_of_append happ hhead
    have filled := h
    rw [split, List.mem_cons, not_or] at h
    rw [Record.read, hs, Value.lookup_of_ne_empty (ne_empty_of_pieces filled), split]
    simp only [Value.descend, Value.child?, Value.lookup_of_ne_empty (ne_empty_of_pieces h.2)]

theorem Expr.isScoped_of_not_mem {name : String} (undotted : '.' ∉ name.toList)
    (named : name ∉ ["fields", "request", "query"]) : Expr.isScoped name = false := by
  simp only [List.mem_cons, List.not_mem_nil, or_false, not_or] at named
  simp [Expr.isScoped, Text.pieces_of_not_mem undotted, named]

/-- An unscoped path leads into the record under `fields`. -/
theorem Expr.get_in_record {path : String} {c : Value} (record : Record) (filled : path ≠ "")
    (rooted : Text.afterChar? '.' path = none) (unscoped : Expr.isScoped path = false)
    (hc : c.get? "fields" = some (.obj record)) :
    Expr.get path c = ((Value.obj record).lookup path).getD .null := by
  have hpath : Expr.resolvedPath path c = "fields." ++ path := by
    simp [Expr.resolvedPath, rooted, hc, unscoped]
  have hpieces : Text.pieces '.' ("fields." ++ path) = "fields" :: Text.pieces '.' path :=
    Text.pieces_of_append (by simp) (by decide)
  have hchild : c.child? "fields" = some (.obj record) := by
    cases c with
    | obj es => exact hc
    | _ => cases hc
  rw [Expr.get, hpath, Value.lookup_of_ne_empty (by simp [← String.toList_inj]), hpieces,
    Value.lookup_of_ne_empty filled]
  simp [Value.descend, hchild]

section fields
variable {r : Resource} {f : Field} {path : String}

/-- The view has the value at its storage path for every stored field. -/
theorem Resource.get?_view (found : r.field? f.name = some f)
    (stored : f.source.storagePath? = some path) (record : Record) :
    Entries.get? (r.view record) f.name = some ((record.read path).getD .null) := by
  unfold Resource.field? at found
  unfold Resource.view
  generalize r.fields = fields at found
  induction fields with
  | nil => cases found
  | cons g fields ih =>
    by_cases hg : g.name = f.name
    · obtain rfl : g = f := by simpa [List.find?_cons, hg] using found
      simp [Entries.get?, stored]
    · have hne : (f.name == g.name) = false := beq_eq_false_iff_ne.mpr (Ne.symm hg)
      have rest : fields.find? (fun g => g.name == f.name) = some f := by
        simpa [List.find?_cons, hg] using found
      cases hp : g.source.storagePath? with
      | none => simpa [Entries.get?, hp] using ih rest
      | some p => simpa [Entries.get?, hp, List.lookup_cons, hne] using ih rest

theorem toStorage_field (s : Server) (found : r.field? f.name = some f) (plain : f.Plain path)
    (filled : f.name ≠ "") (reference : Expr.unquoted? f.name = none) :
    s.toStorage r (.str f.name) = .ok (.str path) := by
  have translated : (f.name.isEmpty || (Text.afterChar? '.' f.name).isSome ||
      (Expr.unquoted? f.name).isSome) = false := by
    simp [filled, Text.afterChar?_of_not_mem plain.undotted, reference]
  have hname : r.storagePath f.name = .ok (f, path) := by
    simp [Resource.storagePath, found, plain.stored]
  simp [Server.toStorage, translated, Server.storagePath, Text.pieces_of_not_mem plain.undotted,
    Server.storageSegments, hname]

/-- The storage path of a field reads from a record what its name reads from the view. -/
theorem eval_field (found : r.field? f.name = some f) (plain : f.Plain path) (filled : f.name ≠ "")
    (reference : Expr.unquoted? f.name = none) (ctx : Context) (record : Record) :
    Expr.eval (.node "fields" (.obj record)) (.str path) =
      Expr.eval (ctx.recordScope (some (r.view record))) (.str f.name) := by
  have hpath := ne_empty_of_pieces plain.filled
  have hname := Expr.isScoped_of_not_mem plain.undotted plain.named
  rw [Expr.eval, Expr.eval, Expr.evalText, Expr.evalText, plain.unquoted, reference]
  simp only [String.isEmpty_iff, hpath, filled, if_false]
  rw [Expr.get_in_record record hpath (afterChar?_of_pieces plain.filled) plain.unscoped rfl,
    Expr.get_in_record (r.view record) filled (Text.afterChar?_of_not_mem plain.undotted) hname rfl,
    ← Record.read_eq_lookup record plain.filled, Value.lookup_of_not_mem plain.undotted filled,
    Value.child?, Resource.get?_view found plain.stored]
  rfl

end fields

/-! Translating formulas -/

theorem toStorageItems_eq (s : Server) (r : Resource) (xs : List Value) :
    s.toStorageItems r xs = xs.mapM (s.toStorage r) := by
  induction xs with
  | nil => rfl
  | cons x xs ih => rw [Server.toStorageItems, ih, Except.mapM_cons]

theorem toStorage_node (s : Server) (r : Resource) {name : String} (h : name ≠ "literal")
    (args : Value) : s.toStorage r (.node name args) = (s.toStorage r args).map (.node name) := by
  rw [Value.node, Server.toStorage, Server.toStorageEntries, if_neg h]
  cases s.toStorage r args <;> rfl

theorem ne_literal {name : String} {m : Expr.Method} (hm : Expr.Method.ofName? name = some m)
    (h : m.decides) : name ≠ "literal" := by
  rintro rfl
  have literal : Expr.Method.ofName? "literal" = some .literal := rfl
  cases literal.symm.trans hm
  cases h

/-- Every settled formula can be stored. On a record it then has the outcome that the formula has on
the view of the record, whatever the request and the query. -/
theorem toStorage_settled (s : Server) {r : Resource} {q : Value} (h : Settled r q) :
    ∃ p, s.toStorage r q = .ok p ∧ (q.arr? = none → p.arr? = none) ∧
      ∀ (ctx : Context) (record : Record), Expr.eval (.node "fields" (.obj record)) p =
        Expr.eval (ctx.recordScope (some (r.view record))) q := by
  induction h with
  | null => exact ⟨.null, rfl, id, fun _ _ => rfl⟩
  | bool b => exact ⟨.bool b, rfl, id, fun _ _ => rfl⟩
  | num n => exact ⟨.num n, rfl, id, fun _ _ => rfl⟩
  | @quoted t inner h =>
    refine ⟨.str t, by simp [Server.toStorage, h], id, fun ctx record => ?_⟩
    simp [Expr.eval, Expr.evalText, h]
  | @field f path found plain =>
    by_cases filled : f.name = ""
    · exact ⟨.str f.name, by simp [Server.toStorage, filled], id, fun ctx record => by rw [filled]; rfl⟩
    · cases hq : Expr.unquoted? f.name with
      | some inner =>
        refine ⟨.str f.name, by simp [Server.toStorage, hq], id, fun ctx record => ?_⟩
        simp [Expr.eval, Expr.evalText, hq]
      | none =>
        exact ⟨.str path, toStorage_field s found plain filled hq, fun _ => rfl,
          eval_field found plain filled hq⟩
  | reference h points => exact points.elim
  | @list xs each ih =>
    obtain ⟨ys, hys, same⟩ := Except.mapM_ok ih
    refine ⟨.arr ys, ?_, (fun h => by cases h), fun ctx record => ?_⟩
    · rw [Server.toStorage, toStorageItems_eq, hys, Except.ok_map]
    · rw [Expr.eval, Expr.eval, Expr.evalItems_congr (same.flip.imp fun y x h => h.2 ctx record)]
  | @node name m xs method decides each ih =>
    obtain ⟨ys, hys, same⟩ := Except.mapM_ok ih
    refine ⟨.node name (.arr ys), ?_, fun _ => rfl, fun ctx record => ?_⟩
    · rw [toStorage_node s r (ne_literal method decides), Server.toStorage, toStorageItems_eq, hys]
      rfl
    · exact Expr.eval_node_congr method (Expr.Method.seesOutcomes_of_decides decides)
        (same.flip.imp fun y x h => h.2 ctx record)
  | @bare name op v method decides single operand ih =>
    obtain ⟨w, hw, hsingle, same⟩ := ih
    refine ⟨.node name w, ?_, fun _ => rfl, fun ctx record => ?_⟩
    · rw [toStorage_node s r (ne_literal method decides), hw, Except.ok_map]
    · rw [Expr.eval_node_bare _ method (hsingle single), Expr.eval_node_bare _ method single,
        same ctx record]

end RecordGraph
