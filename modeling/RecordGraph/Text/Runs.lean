/-!
Sets of characters as runs of code points.
-/
namespace RecordGraph.Text

/-- Whether a character lies in one of the runs, each given by its first and its last code point. -/
def inRuns (runs : List (Nat × Nat)) (c : Char) : Bool :=
  runs.any fun (first, last) => first ≤ c.toNat && c.toNat ≤ last

end RecordGraph.Text
