import RecordGraph.Page.Window
import RecordGraph.Proofs.Page.Cursor

/-!
Windows: the first page of a list, and the page behind a position that is read from its token.
-/
namespace RecordGraph

namespace Window

/-- The first page of a list. -/
theorem ofPage_start {page : Option Page} {defaultSize : UInt64} (start : page.bind Page.after = none)
    (holds : (page.bind Page.size).getD defaultSize ≠ 0) :
    ofPage page defaultSize = .ok ⟨(page.bind Page.size).getD defaultSize, 0, none⟩ := by
  rw [ofPage, start]
  dsimp only
  rw [if_neg holds]
  rfl

/-- A page behind a position. -/
theorem ofPage_offset {size : Option UInt64} {defaultSize : UInt64} (holds : size.getD defaultSize ≠ 0)
    (n : UInt64) : ofPage (some ⟨size, some (Cursor.offset n).encode⟩) defaultSize =
      .ok ⟨size.getD defaultSize, n, some (.offset n)⟩ := by
  rw [ofPage, Option.bind_some, Option.bind_some]
  dsimp only
  rw [Cursor.decode_encode, if_neg holds]
  rfl

theorem toNat_oneMore (n : UInt64) : (oneMore n).toNat = min (n.toNat + 1) (UInt64.size - 1) := by
  have hsize := n.toNat_lt_size
  unfold oneMore
  split
  · rw [UInt64.toNat_add]
    have hone : (1 : UInt64).toNat = 1 := rfl
    rw [hone, Nat.mod_eq_of_lt (by simpa [UInt64.size] using ‹_›)]
    omega
  · omega

end Window
end RecordGraph
