import RecordGraph.Text.Lowercase
import RecordGraph.Text.Pieces
import RecordGraph.Value.Basic

/-!
Equality, order and membership as expressions see them. Numbers compare as doubles on their own and
inside lists; inside maps they compare by kind.
-/
namespace RecordGraph.Expr

mutual
def equal : Value → Value → Bool
  | .num a, .num b => a.equal b
  | .arr xs, .arr ys => equalItems xs ys
  | v, w => v.same w

def equalItems : List Value → List Value → Bool
  | [], [] => true
  | x :: xs, y :: ys => equal x y && equalItems xs ys
  | _, _ => false
end

/-- Each value equals the next one. -/
def allEqual : List Value → Bool
  | x :: y :: rest => equal x y && allEqual (y :: rest)
  | _ => true

/-- Texts by code point, which is also the order of their UTF-8 bytes. -/
def orderText (a b : String) : Ordering := if a < b then .lt else if a = b then .eq else .gt

/-- Two numbers, two texts or two booleans; all else is incomparable. -/
def order : Value → Value → Option Ordering
  | .num a, .num b => some (a.order b)
  | .str a, .str b => some (orderText a b)
  | .bool a, .bool b => some (compare a b)
  | _, _ => none

/-- A part of a text, an item of a list, or a key of a map. -/
def contains : Value → Value → Bool
  | .str s, .str part => Text.contains s part
  | .arr xs, v => xs.any fun x => equal x v
  | .obj es, .str key => Entries.has es key
  | _, _ => false

/-- As `contains`, but texts count as equal when their lower-case forms are. -/
def containsFolded : Value → Value → Bool
  | .str s, .str part => Text.contains (Text.lower s) (Text.lower part)
  | .arr xs, .str s =>
    let folded := Text.lower s
    xs.any fun x => match x with
      | .str t => Text.lower t == folded
      | _ => false
  | v, w => contains v w

/-- The first value that no later one beats, nulls left out; `wanted` is how a later one must compare. -/
def extreme (wanted : Ordering) (values : List Value) : Value :=
  let best := (values.filter fun v => !v.isNull).foldl (fun best v => match best with
    | some current => if order v current = some wanted then some v else some current
    | none => some v) none
  best.getD .null

end RecordGraph.Expr
