import RecordGraph.Proofs.Entries
import RecordGraph.Proofs.Predicate.Storage

/-!
Values that differ at one path. A path that leads elsewhere reads the same from a value with and without
what is there.
-/
namespace RecordGraph

namespace Entries
variable {α : Type} {es : Entries α} {key k : String}

/-- The entries of all other keys. -/
def drop (es : Entries α) (key : String) : Entries α := es.filter fun entry => entry.1 != key

/-- The entries, with the value under a key changed. -/
def adjust (es : Entries α) (key : String) (f : α → α) : Entries α :=
  es.map fun entry => if entry.1 = key then (entry.1, f entry.2) else entry

theorem get?_drop (h : k ≠ key) : (es.drop key).get? k = es.get? k := by
  induction es with
  | nil => rfl
  | cons entry es ih =>
    rw [drop, List.filter_cons, ← drop, get?_cons]
    by_cases hkey : entry.1 = key
    · have hk : k ≠ entry.1 := fun heq => h (heq.trans hkey)
      rw [if_neg (by simp [hkey]), if_neg hk, ih]
    · rw [if_pos (by simp [hkey]), get?_cons, ih]

theorem get?_adjust (es : Entries α) (f : α → α) :
    (es.adjust key f).get? k = if k = key then (es.get? k).map f else es.get? k := by
  induction es with
  | nil => simp [adjust, get?]
  | cons entry es ih =>
    rw [adjust, List.map_cons, ← adjust, get?_cons, get?_cons, ih]
    by_cases hentry : entry.1 = key
    · rw [if_pos hentry, hentry]
      by_cases hk : k = key <;> simp [hk]
    · rw [if_neg hentry]
      by_cases hk : k = entry.1 <;> simp [hk, hentry]

end Entries

/-- Whether two paths part: at some segment they name different keys that are not one position either. -/
def diverge : List String → List String → Bool
  | s :: ss, t :: ts =>
    if s = t then diverge ss ts else (Text.uint64? s).isNone || Text.uint64? s != Text.uint64? t
  | _, _ => false

namespace Value

/-- A value without what a path leads to: maps lose the key, lists have null at the position. -/
def without : List String → Value → Value
  | [], _ => .null
  | segment :: rest, .obj es =>
    .obj (if rest.isEmpty then Entries.drop es segment else Entries.adjust es segment (without rest))
  | segment :: rest, .arr xs =>
    match Text.uint64? segment with
    | some n => .arr (xs.modify n.toNat (without rest))
    | none => .arr xs
  | _ :: _, v => v

variable {s t : String} {ss : List String}

theorem child?_without_self (rest : ss ≠ []) (v : Value) :
    (v.without (s :: ss)).child? s = (v.child? s).map (without ss) := by
  cases v with
  | obj es => simp [without, child?, rest, Entries.get?_adjust]
  | arr xs =>
    cases hs : Text.uint64? s with
    | none => simp [without, child?, hs]
    | some n => simp [without, child?, hs, List.getElem?_modify_eq]
  | _ => rfl

theorem child?_without (keys : s ≠ t) (positions : (Text.uint64? s).isNone ∨ Text.uint64? s ≠ Text.uint64? t)
    (ss : List String) (v : Value) : (v.without (s :: ss)).child? t = v.child? t := by
  cases v with
  | obj es =>
    rw [without]
    split
    · exact Entries.get?_drop keys.symm
    · exact (Entries.get?_adjust es (without ss)).trans (if_neg keys.symm)
  | arr xs =>
    cases hs : Text.uint64? s with
    | none => simp [without, hs]
    | some n =>
      cases ht : Text.uint64? t with
      | none => simp [without, child?, hs, ht]
      | some m =>
        have hne : n.toNat ≠ m.toNat := fun heq => by
          simp [hs, ht, UInt64.toNat_inj.mp heq] at positions
        simp [without, child?, hs, ht, List.getElem?_modify, hne]
  | _ => rfl

/-- What a path that parts from another leads to does not depend on what is at the other. -/
theorem descend_without {path other : List String} (h : diverge path other) (v : Value) :
    (v.without path).descend other = v.descend other := by
  induction path generalizing other v with
  | nil => cases h
  | cons s ss ih =>
    cases other with
    | nil => cases h
    | cons t ts =>
      rw [diverge] at h
      rw [descend, descend]
      by_cases keys : s = t
      · subst keys
        rw [if_pos rfl] at h
        have rest : ss ≠ [] := fun hnil => by
          rw [hnil] at h
          cases h
        rw [child?_without_self rest]
        cases v.child? s with
        | none => rfl
        | some below => exact ih h below
      · rw [if_neg keys] at h
        rw [child?_without keys (by simpa using h)]

end Value

namespace Record
variable {path : String} {record : Record}

/-- A record without what is stored at a path. -/
def without (path : String) (record : Record) : Record :=
  ((Value.obj record).without (Text.pieces '.' path)).obj?.getD []

theorem obj_without (path : String) (record : Record) :
    Value.obj (record.without path) = (Value.obj record).without (Text.pieces '.' path) := by
  unfold without
  obtain ⟨first, rest, h⟩ := List.exists_cons_of_ne_nil (Text.pieces_ne_nil '.' path)
  rw [h]
  rfl

/-- A path reads the same without what is stored at a path that it parts from. -/
theorem lookup_without {other : String} (h : diverge (Text.pieces '.' path) (Text.pieces '.' other))
    (record : Record) : (Value.obj (record.without path)).lookup other = (Value.obj record).lookup other := by
  unfold Value.lookup
  rw [obj_without, Value.descend_without h]

theorem read_without {other : String} (h : diverge (Text.pieces '.' path) (Text.pieces '.' other))
    (filled : "" ∉ Text.pieces '.' other) (record : Record) :
    (record.without path).read other = record.read other := by
  rw [read_eq_lookup _ filled, read_eq_lookup _ filled, lookup_without h]

theorem get?_without {key : String} (h : (Text.pieces '.' path).head? ≠ some key) (record : Record) :
    (record.without path).get? key = record.get? key := by
  obtain ⟨first, rest, hpieces⟩ := List.exists_cons_of_ne_nil (Text.pieces_ne_nil '.' path)
  have hne : key ≠ first := by
    rw [hpieces] at h
    simpa [eq_comm] using h
  unfold without
  rw [hpieces, Value.without]
  split
  · exact Entries.get?_drop hne
  · exact (Entries.get?_adjust record _).trans (if_neg hne)

end Record

/-! What is made of records -/

/-- What is made of a record does not read a path: it is the same for records that differ there only. -/
def Unread {α : Type} (path : String) (make : Record → α) : Prop :=
  ∀ a b : Record, a.without path = b.without path → make a = make b

section unread
variable {α : Type} {path : String} {make : Record → α}

theorem unread_of_without (h : ∀ record, make (record.without path) = make record) : Unread path make :=
  fun a b same => (h a).symm.trans ((congrArg make same).trans (h b))

theorem unread_read {other : String} (h : diverge (Text.pieces '.' path) (Text.pieces '.' other))
    (filled : "" ∉ Text.pieces '.' other) : Unread path (Record.read · other) :=
  unread_of_without (Record.read_without h filled)

theorem unread_get? {key : String} (h : (Text.pieces '.' path).head? ≠ some key) :
    Unread path (Entries.get? · key) := unread_of_without (Record.get?_without h)

end unread

/-- Stores with the same collections and records, up to what the records of one collection hold at a
path. -/
def Store.AgreeOff (collection path : String) (store other : Store) : Prop :=
  List.Forall₂ (fun entry entry' : String × List Record => entry.1 = entry'.1 ∧
    if entry.1 = collection then
      List.Forall₂ (fun a b : Record => a.without path = b.without path) entry.2 entry'.2
    else entry.2 = entry'.2) store other

end RecordGraph
