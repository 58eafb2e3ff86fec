import Mathlib.Data.List.Basic
import RecordGraph.Value.Basic

/-!
Equal values. Numbers of one kind, and the values that hold them, are equal exactly if they agree once
zeros have lost their sign, so equality is that of plain forms.
-/
namespace RecordGraph

/-! Numbers -/

/-- The number, a zero without its sign. -/
def Double.plain (d : Double) : Double := if d.isZero then .zero else d

theorem Double.same_iff {a b : Double} : a.same b ↔ a.plain = b.plain := by
  obtain ⟨s, m, hm⟩ := a
  obtain ⟨t, n, hn⟩ := b
  simp only [same, key, plain, isZero, zero, beq_iff_eq]
  by_cases hm0 : m = 0 <;> by_cases hn0 : n = 0 <;> cases s <;> cases t <;>
    simp [hm0, hn0] <;> omega

def Number.plain : Number → Number
  | .int i h => .int i h
  | .double d => .double d.plain

theorem Number.same_iff {a b : Number} : a.same b ↔ a.plain = b.plain := by
  cases a <;> cases b <;> simp [same, plain, Double.same_iff]

/-! Values -/

namespace Value

mutual
/-- The value with the plain forms of its numbers. -/
def plain : Value → Value
  | .num n => .num n.plain
  | .arr xs => .arr (plainItems xs)
  | .obj es => .obj (plainEntries es)
  | v => v

def plainItems : List Value → List Value
  | [] => []
  | x :: xs => plain x :: plainItems xs

def plainEntries : List (String × Value) → List (String × Value)
  | [] => []
  | (k, v) :: es => (k, plain v) :: plainEntries es
end

mutual
theorem same_iff : ∀ {v w : Value}, v.same w ↔ v.plain = w.plain
  | .arr xs, w => by cases w <;> simp [same, plain, sameItems_iff]
  | .obj es, w => by cases w <;> simp [same, plain, sameEntries_iff]
  | .num n, w => by cases w <;> simp [same, plain, Number.same_iff]
  | .null, w => by cases w <;> simp [same, plain]
  | .bool b, w => by cases w <;> simp [same, plain]
  | .str s, w => by cases w <;> simp [same, plain]

theorem sameItems_iff : ∀ {xs ys : List Value}, sameItems xs ys ↔ plainItems xs = plainItems ys
  | [], ys => by cases ys <;> simp [sameItems, plainItems]
  | x :: xs, ys => by cases ys <;> simp [sameItems, plainItems, same_iff, sameItems_iff]

theorem sameEntries_iff : ∀ {es fs : List (String × Value)},
    sameEntries es fs ↔ plainEntries es = plainEntries fs
  | [], fs => by cases fs <;> simp [sameEntries, plainEntries]
  | e :: es, fs => by
    cases fs <;> simp [sameEntries, plainEntries, same_iff, sameEntries_iff]
end

theorem same_refl (v : Value) : v.same v := same_iff.mpr rfl

theorem sameEntries_refl (es : List (String × Value)) : sameEntries es es := sameEntries_iff.mpr rfl

end Value
end RecordGraph
