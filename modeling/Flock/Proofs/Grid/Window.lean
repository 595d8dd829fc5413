import Mathlib.Data.Int.Interval
import Mathlib.Data.List.ProdSigma
import Mathlib.Tactic.Linarith
import Flock.World.Grid

/-!
# Search windows

The window around a cell has the cells that are at most a span away from it along either
axis, as long as these have numbers (`Grid.mem_window_iff`). If some of them have none, one
of the two ends of a row or a column comes out at the other end of the range of numbers, and
there is nothing in between: the window is empty (`Grid.window_eq_nil`).

A window is searched only if it has no more cells than are occupied. So its span is known to
be small where the occupied cells lie close to each other (`Grid.two_mul_add_one_le`).
-/

namespace Flock

namespace Double

theorem leastCell_eq : leastCell = -2 ^ 63 := rfl

theorem greatestCell_eq : greatestCell = 2 ^ 63 - 1 := rfl

end Double

namespace Grid

variable {cell middle : Cell} {span wider n m k : Int}

theorem wrapped_eq_bmod (n : Int) : wrapped n = n.bmod (2 ^ 64) := rfl

theorem wrapped_eq (hlow : Double.leastCell ≤ n) (hhigh : n ≤ Double.greatestCell) :
    wrapped n = n := by
  rw [Double.leastCell_eq] at hlow
  rw [Double.greatestCell_eq] at hhigh
  rw [wrapped_eq_bmod]
  exact Int.bmod_eq_of_le (by omega) (by omega)

theorem mem_rangeAround_iff :
    n ∈ rangeAround m span ↔ wrapped (m - span) ≤ n ∧ n ≤ wrapped (m + span) := by
  simp only [rangeAround, List.mem_map, List.mem_range]
  constructor
  · rintro ⟨i, hi, rfl⟩
    omega
  · rintro ⟨hlow, hhigh⟩
    exact ⟨(n - wrapped (m - span)).toNat, by omega, by omega⟩

theorem nodup_rangeAround (m span : Int) : (rangeAround m span).Nodup := by
  refine List.nodup_range.map fun i j h => ?_
  have heq : wrapped (m - span) + (i : Int) = wrapped (m - span) + (j : Int) := h
  omega

theorem nodup_window (middle : Cell) (span : Int) : (window middle span).Nodup :=
  (nodup_rangeAround middle.1 span).product (nodup_rangeAround middle.2 span)

theorem mem_window_iff_mem_rangeAround :
    cell ∈ window middle span ↔
      cell.1 ∈ rangeAround middle.1 span ∧ cell.2 ∈ rangeAround middle.2 span :=
  List.mem_product

/-- The cells of a window that has a number for each of them. -/
theorem mem_window_iff (h : Fits middle span) (hspan : 0 ≤ span) :
    cell ∈ window middle span ↔ |cell.1 - middle.1| ≤ span ∧ |cell.2 - middle.2| ≤ span := by
  obtain ⟨⟨hleft, hright⟩, hbelow, habove⟩ := h
  rw [mem_window_iff_mem_rangeAround, mem_rangeAround_iff, mem_rangeAround_iff,
    wrapped_eq hleft (by omega), wrapped_eq (by omega) hright, wrapped_eq hbelow (by omega),
    wrapped_eq (by omega) habove]
  simp only [abs_le]
  omega

theorem Fits.mono (h : Fits middle wider) (hle : span ≤ wider) : Fits middle span := by
  unfold Fits at h ⊢
  omega

/-- Where an end is beyond the range of cell numbers, the last number is less than the first. -/
theorem rangeAround_eq_nil (hlow : Double.leastCell ≤ m) (hhigh : m ≤ Double.greatestCell)
    (hspan : span < 2 ^ 63) (h : m - span < Double.leastCell ∨ Double.greatestCell < m + span) :
    rangeAround m span = [] := by
  rw [Double.leastCell_eq] at hlow h
  rw [Double.greatestCell_eq] at hhigh h
  have hfirst : wrapped (m - span) =
      if m - span < -2 ^ 63 then m - span + 2 ^ 64 else m - span := by
    rw [wrapped_eq_bmod]
    split_ifs
    · rw [← Int.add_bmod_right]
      exact Int.bmod_eq_of_le (by omega) (by omega)
    · exact Int.bmod_eq_of_le (by omega) (by omega)
  have hlast : wrapped (m + span) =
      if 2 ^ 63 - 1 < m + span then m + span - 2 ^ 64 else m + span := by
    rw [wrapped_eq_bmod]
    split_ifs
    · rw [← Int.sub_bmod_right]
      exact Int.bmod_eq_of_le (by omega) (by omega)
    · exact Int.bmod_eq_of_le (by omega) (by omega)
  refine List.eq_nil_iff_forall_not_mem.mpr fun n hn => ?_
  rw [mem_rangeAround_iff, hfirst, hlast] at hn
  split_ifs at hn <;> omega

/-- The window around a cell is empty if some of its cells would have no numbers. -/
theorem window_eq_nil (hmiddle : Fits middle 0) (hspan : span < 2 ^ 63)
    (h : ¬ Fits middle span) : window middle span = [] := by
  unfold Fits at hmiddle
  obtain ⟨⟨hleft, hright⟩, hbelow, habove⟩ := hmiddle
  have hends : (middle.1 - span < Double.leastCell ∨ Double.greatestCell < middle.1 + span) ∨
      (middle.2 - span < Double.leastCell ∨ Double.greatestCell < middle.2 + span) := by
    unfold Fits at h
    omega
  refine List.eq_nil_iff_forall_not_mem.mpr fun cell hcell => ?_
  obtain ⟨hcolumn, hrow⟩ := mem_window_iff_mem_rangeAround.mp hcell
  rcases hends with hcolumns | hrows
  · rw [rangeAround_eq_nil (by omega) (by omega) hspan hcolumns] at hcolumn
    exact List.not_mem_nil hcolumn
  · rw [rangeAround_eq_nil (by omega) (by omega) hspan hrows] at hrow
    exact List.not_mem_nil hrow

/-! The number of cells. -/

/-- The cells with columns and rows among `n` numbers. -/
def InSquare (low n : Int) (cell : Cell) : Prop :=
  (low ≤ cell.1 ∧ cell.1 < low + n) ∧ low ≤ cell.2 ∧ cell.2 < low + n

/-- The cells with columns and rows less than `2 ^ 62` away from 0. -/
def IsNear (cell : Cell) : Prop := InSquare (1 - 2 ^ 62) (2 ^ 63 - 1) cell

instance (low n : Int) (cell : Cell) : Decidable (InSquare low n cell) :=
  inferInstanceAs (Decidable ((_ ∧ _) ∧ _ ∧ _))

instance (cell : Cell) : Decidable (IsNear cell) := inferInstanceAs (Decidable (InSquare _ _ cell))

theorem Fits.inSquare (h : Fits cell 0) : InSquare (-2 ^ 63) (2 ^ 64) cell := by
  unfold Fits at h
  rw [Double.leastCell_eq, Double.greatestCell_eq] at h
  unfold InSquare
  omega

/-- A window as wide as the near cells fits around each of them. -/
theorem IsNear.fits (h : IsNear cell) (hwide : 2 * span + 1 ≤ 2 ^ 63 - 1) : Fits cell span := by
  unfold IsNear InSquare at h
  unfold Fits
  rw [Double.leastCell_eq, Double.greatestCell_eq]
  omega

/-- A square has no more cells than the product of its sides. -/
theorem length_le_of_inSquare {cells : List Cell} (h : cells.Nodup) (hn : 0 ≤ n)
    (hsquare : ∀ cell ∈ cells, InSquare m n cell) : (cells.length : Int) ≤ n * n := by
  have hsubset : cells.toFinset ⊆ Finset.Ico m (m + n) ×ˢ Finset.Ico m (m + n) := by
    intro cell hcell
    obtain ⟨hcolumn, hrow⟩ := hsquare cell (List.mem_toFinset.mp hcell)
    exact Finset.mem_product.mpr ⟨Finset.mem_Ico.mpr hcolumn, Finset.mem_Ico.mpr hrow⟩
  have hcard := Finset.card_le_card hsubset
  rw [List.toFinset_card_of_nodup h, Finset.card_product, Int.card_Ico] at hcard
  have hside : (((m + n - m).toNat : Nat) : Int) = n := by omega
  calc (cells.length : Int) ≤ ((m + n - m).toNat * (m + n - m).toNat : Nat) := by
        exact_mod_cast hcard
    _ = n * n := by rw [Nat.cast_mul, hside]

/-- A window with no more cells than are occupied in a square is no wider than the square. -/
theorem two_mul_add_one_le {cells : List Cell} (h : cells.Nodup) (hn : 0 ≤ n)
    (hsquare : ∀ cell ∈ cells, InSquare m n cell)
    (hfew : (2 * span + 1) * (2 * span + 1) ≤ (cells.length : Int)) : 2 * span + 1 ≤ n := by
  have hle := hfew.trans (length_le_of_inSquare h hn hsquare)
  by_contra hwide
  nlinarith

end Grid

end Flock
