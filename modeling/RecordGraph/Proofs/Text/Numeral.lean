import RecordGraph.Text.Numeral
import RecordGraph.Value.Printer

/-!
Integers read back from their texts.
-/
namespace RecordGraph

namespace Text

theorem digitsToNat_toDigits (n : Nat) : digitsToNat (Nat.toDigits 10 n) = n := by
  have hstep : (fun (n : Nat) (c : Char) => n * 10 + (c.toNat - 48)) =
      fun n c => 10 * n + (c.toNat - '0'.toNat) := by
    funext n c
    rw [Nat.mul_comm]
    rfl
  rw [digitsToNat, hstep]
  exact Nat.ofDigitChars_ten_toDigits

theorem isDigit_of_mem_digits {n : Nat} {c : Char} (h : c ∈ Nat.toDigits 10 n) : c.isDigit :=
  Nat.isDigit_of_mem_toDigits (by decide) (by decide) h

theorem digits?_toDigits (n : Nat) : digits? (Nat.toDigits 10 n) = some n := by
  rw [digits?, if_pos, digitsToNat_toDigits]
  simpa using fun c => isDigit_of_mem_digits (n := n) (c := c)

/-- Digits do not begin with a sign. -/
theorem toDigits_ne_cons {n : Nat} {c : Char} (h : c.isDigit = false) (cs : List Char) :
    Nat.toDigits 10 n ≠ c :: cs := by
  intro heq
  have hc : c.isDigit := isDigit_of_mem_digits (n := n) (heq ▸ List.mem_cons_self)
  rw [h] at hc
  cases hc

/-- A number of 64 bits is read from its digits. -/
theorem uint64?_repr (n : UInt64) : uint64? n.toNat.repr = some n := by
  have hlist : n.toNat.repr.toList = Nat.toDigits 10 n.toNat := by
    rw [Nat.repr_eq_ofList_toDigits, String.toList_ofList]
  have hnat : nat? n.toNat.repr = some n.toNat := by
    rw [nat?, hlist]
    split
    · exact absurd ‹_› (toDigits_ne_cons rfl _)
    · exact digits?_toDigits n.toNat
  rw [uint64?, hnat, Option.bind_some, if_pos n.toNat_lt, UInt64.ofNat_toNat]

/-- An integer that 64 bits hold with a sign is read from its text. -/
theorem int64?_text {i : Int} (h : -0x8000000000000000 ≤ i ∧ i < 0x10000000000000000)
    (signed : i < 0x8000000000000000) : int64? (Number.int i h).text = some i := by
  have fits : (-0x8000000000000000 ≤ i && i < 0x8000000000000000) = true := by simp [h.1, signed]
  rw [int64?, Number.text, String.toList_ofList, Number.chars]
  by_cases negative : i < 0
  · have habs : -(i.natAbs : Int) = i := by omega
    simp only [negative, if_true, List.cons_append, List.nil_append, digits?_toDigits]
    change Option.filter _ (some (-(i.natAbs : Int))) = some i
    rw [habs, Option.filter_some, if_pos fits]
  · have habs : (i.natAbs : Int) = i := by omega
    rw [if_neg negative, List.nil_append]
    split
    · exact absurd ‹_› (toDigits_ne_cons rfl _)
    · exact absurd ‹_› (toDigits_ne_cons rfl _)
    · rw [digits?_toDigits]
      change Option.filter _ (some (i.natAbs : Int)) = some i
      rw [habs, Option.filter_some, if_pos fits]

theorem number?_text {i : Int} (h : -0x8000000000000000 ≤ i ∧ i < 0x10000000000000000)
    (signed : i < 0x8000000000000000) : number? (Number.int i h).text = some (.int i h) := by
  rw [number?, int64?_text h signed]
  exact dif_pos h

end Text
end RecordGraph
