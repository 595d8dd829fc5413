import Flock.Proofs.Double.Canonical

/-!
# The order of doubles

Two doubles compare as their parts do. Among those that are not below zero it is the
exponents that decide first, and then the mantissas, so each of them has a whole number
for its rank, and they compare as their ranks do (`lt_iff_rank`, `le_iff_rank`). A double
that is not a number compares with none.
-/

namespace Flock

namespace Double

open Float.Model Float.Model.UnpackedFloat

variable {x y : Float} {u v : UnpackedFloat} {s : Sign} {m : Nat} {e : Int} {hm : 0 < m}

theorem le_iff : x ≤ y ↔ (parts x).le (parts y) := decide_eq_true_iff

theorem lt_iff : x < y ↔ (parts x).lt (parts y) := decide_eq_true_iff

theorem compare_swap (u v : UnpackedFloat) : v.compare u = (u.compare v).map Ordering.swap := by
  have hkeys (e f : Int) (m n : Nat) : (compare f e).then (compare n m) =
      ((compare e f).then (compare m n)).swap := by
    rw [Ordering.swap_then, ← Std.OrientedCmp.eq_swap, ← Std.OrientedCmp.eq_swap]
  cases u with
  | notANumber => cases v <;> rfl
  | infinity s => cases s <;> cases v with
    | infinity t => cases t <;> rfl
    | _ => rfl
  | zero s => cases v with
    | infinity t => cases t <;> rfl
    | finite t => cases t <;> rfl
    | _ => rfl
  | finite s m e hm => cases s <;> cases v with
    | infinity t => cases t <;> rfl
    | finite t n f hn => cases t <;> simp [UnpackedFloat.compare, hkeys e f m n]
    | _ => rfl

theorem exists_compare (hu : u.isNaN = false) (hv : v.isNaN = false) :
    ∃ order, u.compare v = some order := by
  cases u with
  | notANumber => exact absurd hu.symm Bool.false_ne_true
  | infinity s => cases s <;> cases v with
    | notANumber => exact absurd hv.symm Bool.false_ne_true
    | _ => exact ⟨_, rfl⟩
  | zero s => cases v with
    | notANumber => exact absurd hv.symm Bool.false_ne_true
    | infinity t => cases t <;> exact ⟨_, rfl⟩
    | zero t => exact ⟨_, rfl⟩
    | finite t => cases t <;> exact ⟨_, rfl⟩
  | finite s m e hm => cases s <;> cases v with
    | notANumber => exact absurd hv.symm Bool.false_ne_true
    | infinity t => cases t <;> exact ⟨_, rfl⟩
    | zero t => exact ⟨_, rfl⟩
    | finite t => cases t <;> exact ⟨_, rfl⟩

/-- Of two numbers one is at most the other. -/
theorem le_of_not_lt (hx : x.isNaN = false) (hy : y.isNaN = false) (h : ¬ x < y) : y ≤ x := by
  obtain ⟨order, hcompare⟩ := exists_compare (u := parts x) (v := parts y) hx hy
  rw [lt_iff, UnpackedFloat.lt, hcompare] at h
  rw [le_iff, UnpackedFloat.le, compare_swap (parts x), hcompare]
  cases order with
  | lt => exact absurd rfl h
  | eq => rfl
  | gt => rfl

/-- Two doubles are equal if each of them is at most the other. -/
theorem beq_iff : (x == y) = true ↔ x ≤ y ∧ y ≤ x := by
  have hparts : (parts x).beq (parts y) = ((parts x).le (parts y) && (parts y).le (parts x)) := by
    rw [UnpackedFloat.beq, UnpackedFloat.le, UnpackedFloat.le, compare_swap (parts x)]
    cases (parts x).compare (parts y) with
    | none => rfl
    | some order => cases order <;> rfl
  rw [le_iff, le_iff, ← Bool.and_eq_true_iff, ← hparts]
  rfl

/-- A double and its negative are equal if it is zero. -/
theorem neg_beq_iff : (-x == x) = true ↔ (x == 0) = true := by
  have hzero : parts 0 = .zero .positive := rfl
  change (parts (-x)).beq (parts x) = true ↔ (parts x).beq (parts 0) = true
  rw [parts_neg, hzero]
  cases parts x with
  | notANumber => exact Iff.rfl
  | infinity s => cases s <;> exact iff_of_false Bool.false_ne_true Bool.false_ne_true
  | zero s => exact iff_of_true rfl rfl
  | finite s m e hm => cases s <;> exact iff_of_false Bool.false_ne_true Bool.false_ne_true

/-! Parts that are not below zero. -/

/-- What is not below zero. -/
theorem nonneg_cases (h : (zero .positive).le u) :
    (∃ s, u = .zero s) ∨ (∃ m e hm, u = .finite .positive m e hm) ∨ u = .infinity .positive := by
  cases u with
  | notANumber => exact absurd h Bool.false_ne_true
  | zero s => exact .inl ⟨s, rfl⟩
  | infinity s =>
      cases s with
      | negative => exact absurd h Bool.false_ne_true
      | positive => exact .inr (.inr rfl)
  | finite s m e hm =>
      cases s with
      | negative => exact absurd h Bool.false_ne_true
      | positive => exact .inr (.inl ⟨m, e, hm, rfl⟩)

/-- What is above zero. -/
theorem pos_cases (h : (zero s).lt u) :
    (∃ m e hm, u = .finite .positive m e hm) ∨ u = .infinity .positive := by
  cases u with
  | notANumber => exact absurd h Bool.false_ne_true
  | zero t => exact absurd h Bool.false_ne_true
  | infinity t =>
      cases t with
      | negative => exact absurd h Bool.false_ne_true
      | positive => exact .inr rfl
  | finite t m e hm =>
      cases t with
      | negative => exact absurd h Bool.false_ne_true
      | positive => exact .inl ⟨m, e, hm, rfl⟩

/-- Of two positive numbers the one with the greater exponent is greater. -/
theorem finite_lt_finite {n : Nat} {f : Int} {hn : 0 < n} :
    (finite .positive m e hm).lt (finite .positive n f hn) ↔ e < f ∨ e = f ∧ m < n := by
  simp only [UnpackedFloat.lt, UnpackedFloat.compare, beq_iff_eq, Option.some.injEq]
  rw [Ordering.then_eq_lt, compare_lt_iff_lt, compare_eq_iff_eq, compare_lt_iff_lt]

/-- What is at least a number that is not below zero is not below zero either. -/
theorem nonneg_parts_of_le (h0 : (zero .positive).le u) (h : u.le v) : (zero .positive).le v := by
  rcases nonneg_cases h0 with ⟨s, rfl⟩ | ⟨m, e, hm, rfl⟩ | rfl
  all_goals
    cases v with
    | notANumber => exact absurd h Bool.false_ne_true
    | zero t => rfl
    | infinity t =>
        cases t with
        | negative => exact absurd h Bool.false_ne_true
        | positive => rfl
    | finite t n f hn =>
        cases t with
        | negative => exact absurd h Bool.false_ne_true
        | positive => rfl

/-- A whole number that says how far up a double stands among those that are not below
zero, by its parts. -/
def height : UnpackedFloat → Nat
  | .finite .positive m e _ => (e + 1074).toNat * 2 ^ 53 + m
  | .infinity .positive => 2 ^ 64 - 1
  | _ => 0

theorem height_finite : height (.finite .positive m e hm) = (e + 1074).toNat * 2 ^ 53 + m := rfl

theorem height_finite_lt (h : Canonical (.finite .positive m e hm)) :
    height (.finite .positive m e hm) < 2 ^ 64 - 1 := by
  obtain ⟨hlt, hlow, hhigh, -⟩ := h
  rw [height_finite]
  omega

theorem height_lt (h : Canonical u) : height u < 2 ^ 64 := by
  unfold height
  split
  · exact (height_finite_lt h).trans (by decide)
  · decide
  · decide

theorem compare_finite {n : Nat} {f : Int} {hn : 0 < n} (h : Canonical (.finite .positive m e hm))
    (h' : Canonical (.finite .positive n f hn)) :
    (compare e f).then (compare m n) =
      compare (height (.finite .positive m e hm)) (height (.finite .positive n f hn)) := by
  obtain ⟨hlt, hlow, hhigh, -⟩ := h
  obtain ⟨hlt', hlow', hhigh', -⟩ := h'
  rw [height_finite, height_finite]
  rcases lt_trichotomy e f with horder | rfl | horder
  · rw [compare_lt_iff_lt.mpr horder, eq_comm]
    exact compare_lt_iff_lt.mpr (by omega)
  · rw [compare_eq_iff_eq.mpr rfl]
    rcases lt_trichotomy m n with horder | rfl | horder
    · rw [compare_lt_iff_lt.mpr horder, eq_comm]
      exact compare_lt_iff_lt.mpr (by omega)
    · rw [compare_eq_iff_eq.mpr rfl, compare_eq_iff_eq.mpr rfl]
      rfl
    · rw [compare_gt_iff_gt.mpr horder, eq_comm]
      exact compare_gt_iff_gt.mpr (by omega)
  · rw [compare_gt_iff_gt.mpr horder, eq_comm]
    exact compare_gt_iff_gt.mpr (by omega)

/-- Numbers that are not below zero are compared as their heights are. -/
theorem compare_eq_compare_height (hu : Canonical u) (hv : Canonical v)
    (h0u : (zero .positive).le u) (h0v : (zero .positive).le v) :
    u.compare v = some (compare (height u) (height v)) := by
  have less {a b : Nat} (h : a < b) : some Ordering.lt = some (compare a b) :=
    congrArg some (compare_lt_iff_lt.mpr h).symm
  have more {a b : Nat} (h : b < a) : some Ordering.gt = some (compare a b) :=
    congrArg some (compare_gt_iff_gt.mpr h).symm
  rcases nonneg_cases h0u with ⟨s, rfl⟩ | ⟨m, e, hm, rfl⟩ | rfl <;>
    rcases nonneg_cases h0v with ⟨t, rfl⟩ | ⟨n, f, hn, rfl⟩ | rfl
  · rfl
  · exact less (Nat.lt_of_lt_of_le hn (Nat.le_add_left _ _))
  · exact less (by decide : 0 < 2 ^ 64 - 1)
  · exact more (Nat.lt_of_lt_of_le hm (Nat.le_add_left _ _))
  · exact congrArg some (compare_finite hu hv)
  · exact less (height_finite_lt hu)
  · exact more (by decide : 0 < 2 ^ 64 - 1)
  · exact more (height_finite_lt hv)
  · rfl

/-- How far up a double stands among those that are not below zero. -/
def rank (x : Float) : Nat := height (parts x)

theorem rank_lt (x : Float) : rank x < 2 ^ 64 := height_lt (canonical_parts x)

theorem nonneg_iff : 0 ≤ x ↔ (zero .positive).le (parts x) := le_iff

theorem zero_le_zero : (0 : Float) ≤ 0 := le_iff.mpr rfl

theorem isNaN_of_nonneg (h : 0 ≤ x) : x.isNaN = false := by
  change (parts x).isNaN = false
  rcases nonneg_cases (nonneg_iff.mp h) with ⟨s, hx⟩ | ⟨m, e, hm, hx⟩ | hx
  all_goals
    rw [hx]
    rfl

theorem pos_iff : 0 < x ↔ (zero .positive).lt (parts x) := lt_iff

theorem zero_or_pos (h : 0 ≤ x) : (∃ s, parts x = .zero s) ∨ 0 < x := by
  rw [pos_iff]
  rcases nonneg_cases (nonneg_iff.mp h) with hzero | ⟨m, e, hm, hx⟩ | hx
  · exact .inl hzero
  all_goals
    rw [hx]
    exact .inr rfl

theorem nonneg_of_le (hx : 0 ≤ x) (h : x ≤ y) : 0 ≤ y :=
  nonneg_iff.mpr (nonneg_parts_of_le (nonneg_iff.mp hx) (le_iff.mp h))

theorem le_of_lt (h : x < y) : x ≤ y := by
  rw [lt_iff, UnpackedFloat.lt, beq_iff_eq] at h
  rw [le_iff, UnpackedFloat.le, h]
  rfl

theorem neg_le_self (h : 0 ≤ x) : -x ≤ x := by
  rw [le_iff, parts_neg]
  rcases nonneg_cases (nonneg_iff.mp h) with ⟨s, hx⟩ | ⟨m, e, hm, hx⟩ | hx
  all_goals
    rw [hx]
    rfl

theorem nonneg_of_lt (hx : 0 ≤ x) (h : x < y) : 0 ≤ y := nonneg_of_le hx (le_of_lt h)

section Nonneg

variable (hx : 0 ≤ x) (hy : 0 ≤ y)

include hx hy

theorem lt_iff_rank : x < y ↔ rank x < rank y := by
  rw [nonneg_iff] at hx hy
  rw [lt_iff, UnpackedFloat.lt, compare_eq_compare_height (canonical_parts x) (canonical_parts y)
    hx hy, beq_iff_eq, Option.some.injEq, compare_lt_iff_lt]
  rfl

theorem le_iff_rank : x ≤ y ↔ rank x ≤ rank y := by
  rw [nonneg_iff] at hx hy
  rw [le_iff, UnpackedFloat.le, compare_eq_compare_height (canonical_parts x) (canonical_parts y)
    hx hy, Option.any_some]
  exact Nat.isLE_compare

theorem lt_iff_not_le : x < y ↔ ¬ y ≤ x := by
  rw [lt_iff_rank hx hy, le_iff_rank hy hx, Nat.not_le]

omit hy in
theorem le_trans_of_nonneg {z : Float} (hxy : x ≤ y) (hyz : y ≤ z) : x ≤ z := by
  have hy := nonneg_of_le hx hxy
  have hz := nonneg_of_le hy hyz
  rw [le_iff_rank hx hy] at hxy
  rw [le_iff_rank hy hz] at hyz
  rw [le_iff_rank hx hz]
  exact hxy.trans hyz

end Nonneg

/-- What is at most a number that is not below zero is at most any greater one. -/
theorem le_trans_of_nonneg_right {z : Float} (hy : 0 ≤ y) (hxy : x ≤ y) (hyz : y ≤ z) :
    x ≤ z := by
  by_cases hx : 0 ≤ x
  · exact le_trans_of_nonneg hx hxy hyz
  have h0 := nonneg_iff.mp (nonneg_of_le hy hyz)
  rw [nonneg_iff] at hx
  rw [le_iff] at hxy ⊢
  -- only what is below zero is left
  generalize parts x = u at hx hxy ⊢
  generalize parts z = w at h0 ⊢
  cases u with
  | notANumber => exact absurd hxy Bool.false_ne_true
  | zero s => exact absurd rfl hx
  | infinity s =>
      cases s with
      | positive => exact absurd rfl hx
      | negative => rcases nonneg_cases h0 with ⟨t, rfl⟩ | ⟨n, f, hn, rfl⟩ | rfl <;> rfl
  | finite s m e hm =>
      cases s with
      | positive => exact absurd rfl hx
      | negative => rcases nonneg_cases h0 with ⟨t, rfl⟩ | ⟨n, f, hn, rfl⟩ | rfl <;> rfl

theorem pos_of_le (hx : 0 < x) (h : x ≤ y) : 0 < y := by
  have h0 := le_of_lt hx
  have h0y := nonneg_of_le h0 h
  rw [lt_iff_rank zero_le_zero h0] at hx
  rw [le_iff_rank h0 h0y] at h
  rw [lt_iff_rank zero_le_zero h0y]
  exact hx.trans_le h

end Double

namespace Scalar

variable {x : Float}

theorem isFiniteNonneg_iff : isFiniteNonneg x ↔ x.isFinite ∧ 0 ≤ x := by
  rw [isFiniteNonneg, Bool.and_eq_true_iff, decide_eq_true_iff]
  rfl

theorem isFinitePos_iff : isFinitePos x ↔ x.isFinite ∧ 0 < x := by
  rw [isFinitePos, Bool.and_eq_true_iff, decide_eq_true_iff]
  rfl

end Scalar

end Flock
