import RecordGraph.Double.Basic
import RecordGraph.Value.Entries

/-!
The values that records, queries, rules and requests are made of. Integers and doubles are different
numbers, also where they stand for the same quantity; the two zeros among the doubles are one.
-/
namespace RecordGraph

/-- An integer of at most 64 bits, signed or unsigned, or a double. -/
inductive Number where
  | int (i : Int) (inRange : -0x8000000000000000 ≤ i ∧ i < 0x10000000000000000)
  | double (d : Double)
deriving DecidableEq

namespace Number

/-- The integer itself where 64 bits hold it, else the double nearest to it. -/
def ofInt? (i : Int) : Option Number :=
  if h : -0x8000000000000000 ≤ i ∧ i < 0x10000000000000000 then some (.int i h) else (Double.ofInt? i).map .double

def ofUInt64 (n : UInt64) : Number :=
  .int n.toNat ⟨by omega, by have := n.toNat_lt; omega⟩

/-- A count; counts that 64 bits cannot hold do not occur. -/
def ofNat (n : Nat) : Number := ofUInt64 (UInt64.ofNat n)

def toDouble : Number → Double
  | .int i _ => (Double.ofInt? i).getD .zero
  | .double d => d

def toUInt64? : Number → Option UInt64
  | .int i _ => if 0 ≤ i then some (UInt64.ofNat i.natAbs) else none
  | .double _ => none

/-- Equality by kind: an integer never equals a double. -/
def same : Number → Number → Bool
  | .int i _, .int j _ => i == j
  | .double d, .double e => d.same e
  | _, _ => false

/-- Order of the quantities, taken as doubles. -/
def order (a b : Number) : Ordering := a.toDouble.order b.toDouble

/-- Equality of the quantities, taken as doubles. -/
def equal (a b : Number) : Bool := a.toDouble.same b.toDouble

end Number

inductive Value where
  | null
  | bool (b : Bool)
  | num (n : Number)
  | str (s : String)
  | arr (items : List Value)
  | obj (entries : List (String × Value))

namespace Value

instance : Inhabited Value := ⟨.null⟩

def nat (n : Nat) : Value := .num (.ofNat n)

def uint (n : UInt64) : Value := .num (.ofUInt64 n)

/-- The map of the given pairs, later ones winning. -/
def object (pairs : List (String × Value)) : Value := .obj (Entries.ofList pairs)

/-- A map with one entry. -/
def node (key : String) (value : Value) : Value := .obj [(key, value)]

def isNull : Value → Bool
  | .null => true
  | _ => false

def str? : Value → Option String
  | .str s => some s
  | _ => none

def bool? : Value → Option Bool
  | .bool b => some b
  | _ => none

def arr? : Value → Option (List Value)
  | .arr items => some items
  | _ => none

def obj? : Value → Option (Entries Value)
  | .obj entries => some entries
  | _ => none

def uint? : Value → Option UInt64
  | .num n => n.toUInt64?
  | _ => none

/-- The value under a key, none for what is not a map. -/
def get? (v : Value) (key : String) : Option Value := v.obj?.bind (·.get? key)

/-- The value under a key, null where there is none. -/
def get (v : Value) (key : String) : Value := (v.get? key).getD .null

/-- The value under a key, a null counting as absent. -/
def given? (v : Value) (key : String) : Option Value :=
  (v.get? key).filter fun x => !x.isNull

mutual
/-- Structural equality, numbers compared by kind. -/
def same : Value → Value → Bool
  | .null, .null => true
  | .bool a, .bool b => a == b
  | .num a, .num b => a.same b
  | .str a, .str b => a == b
  | .arr xs, .arr ys => sameItems xs ys
  | .obj es, .obj fs => sameEntries es fs
  | _, _ => false

def sameItems : List Value → List Value → Bool
  | [], [] => true
  | x :: xs, y :: ys => same x y && sameItems xs ys
  | _, _ => false

def sameEntries : List (String × Value) → List (String × Value) → Bool
  | [], [] => true
  | (k, v) :: es, (l, w) :: fs => k == l && same v w && sameEntries es fs
  | _, _ => false
end

instance : BEq Value := ⟨same⟩

mutual
/-- The same value with every map in key order. -/
def canonical : Value → Value
  | .arr xs => .arr (canonicalItems xs)
  | .obj es => .obj (Entries.ofList (canonicalEntries es))
  | v => v

def canonicalItems : List Value → List Value
  | [] => []
  | x :: xs => canonical x :: canonicalItems xs

def canonicalEntries : List (String × Value) → List (String × Value)
  | [] => []
  | (k, v) :: es => (k, canonical v) :: canonicalEntries es
end

mutual
/-- Every map, at any depth, has its keys in strictly increasing order. -/
def Canonical : Value → Prop
  | .arr xs => CanonicalItems xs
  | .obj es => Entries.Sorted es ∧ CanonicalEntries es
  | _ => True

def CanonicalItems : List Value → Prop
  | [] => True
  | x :: xs => Canonical x ∧ CanonicalItems xs

def CanonicalEntries : List (String × Value) → Prop
  | [] => True
  | (_, v) :: es => Canonical v ∧ CanonicalEntries es
end

end Value
end RecordGraph
