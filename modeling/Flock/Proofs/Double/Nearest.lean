import Flock.Proofs.Double.Quotient

/-!
# How near a computed quotient is

A number is rounded to one that is at most half a digit away. So a computed quotient by a
positive double is as near to the exact one as a part of `2 ^ 53` of it, or as half of the least
positive double (`abs_value_div_sub_le`). From this it follows how far apart the cells of two
coordinates can be (`cellNumber_div_le_add`): no further than the cells that a radius spans, if
the radius is greater than the difference of the two by more than the errors of the three
quotients come to (`IsClear`).
-/

namespace Flock

namespace Double

open Float.Model Float.Model.UnpackedFloat

variable {x y c radius : Float} {s : Sign} {n r : Nat} {f t : Int} {hn : 0 < n} {v : ℚ}

/-- How far at most a number is from the double that it is rounded to: half of the last of the
53 digits, or half of the least positive double. -/
def errorBound (v : ℚ) : ℚ := |v| / 2 ^ 53 + 1 / 2 ^ 1075

theorem abs_halfEven_sub_le (q : ℚ) : |halfEven q - q| ≤ 1 / 2 := by
  have hfract : q = ⌊q⌋ + Int.fract q := (Int.floor_add_fract q).symm
  have hnonneg := Int.fract_nonneg q
  have hlt := Int.fract_lt_one q
  have hparity : ⌊q⌋ % 2 = 0 ∨ ⌊q⌋ % 2 = 1 := Int.emod_two_eq_zero_or_one _
  rw [abs_le]
  unfold halfEven
  split_ifs with hless hmore
  · constructor <;> linarith
  · push_cast
    constructor <;> linarith
  · rcases hparity with hparity | hparity
    all_goals
      rw [hparity]
      push_cast
      constructor <;> linarith

theorem errorBound_nonneg (v : ℚ) : 0 ≤ errorBound v := by
  unfold errorBound
  positivity

theorem errorBound_neg (v : ℚ) : errorBound (-v) = errorBound v := by
  rw [errorBound, ← zero_sub, abs_sub_comm, sub_zero, errorBound]

/-- A number is rounded with an error of at most half of the last digit. -/
theorem RoundsTo.abs_sub_le (h : RoundsTo v r t) (hv : 0 ≤ v) :
    |r * 2 ^ t - v| ≤ errorBound v := by
  have hpos : (0 : ℚ) < 2 ^ t := by positivity
  have hnearest : |(r : ℚ) - v / 2 ^ t| ≤ 1 / 2 := by
    have hround : (r : ℚ) = halfEven (v / 2 ^ t) := by exact_mod_cast h.nearest
    rw [hround]
    exact abs_halfEven_sub_le _
  have hdigit : (2 : ℚ) ^ t / 2 ≤ errorBound v := by
    unfold errorBound
    rw [abs_of_nonneg hv]
    by_cases hleast : t = -1074
    · have hhalf : (2 : ℚ) ^ t / 2 = 1 / 2 ^ 1075 := by
        rw [hleast, zpow_neg, pow_succ, ← zpow_natCast, inv_eq_one_div, div_div]
        rfl
      rw [hhalf]
      exact le_add_of_nonneg_left (by positivity)
    · have hpart : (2 : ℚ) ^ t / 2 ≤ v / 2 ^ 53 := by
        rw [le_div_iff₀ (by positivity)]
        refine le_of_eq_of_le ?_ (h.le hleast)
        rw [zpow_add₀ two_ne_zero]
        norm_num
        ring
      exact hpart.trans (le_add_of_nonneg_right (by positivity))
  calc |(r : ℚ) * 2 ^ t - v| = |r - v / 2 ^ t| * 2 ^ t := by
        rw [← abs_of_pos hpos, ← abs_mul, abs_of_pos hpos, sub_mul, div_mul_cancel₀ _ hpos.ne']
    _ ≤ 1 / 2 * 2 ^ t := by gcongr
    _ = 2 ^ t / 2 := by ring
    _ ≤ errorBound v := hdigit

theorem value_ofParts_assemble (hlt : r < 2 ^ 53) (ht : -1074 ≤ t)
    (hdigits : t = -1074 ∨ 2 ^ 52 ≤ r) (hfinite : (ofParts (assemble s r t)).isFinite) :
    value (ofParts (assemble s r t)) = (s.apply (r : Int) : Int) * 2 ^ t := by
  rcases Nat.eq_zero_or_pos r with rfl | hr
  · rw [value_zero (parts_ofParts_assemble_zero s t)]
    cases s <;> simp [Sign.apply]
  · have hparts := parts_ofParts_assemble (s := s) hr hlt ht hdigits
    replace hfinite : (parts (ofParts (assemble s r t))).isFinite := hfinite
    split_ifs at hparts with hle
    · rw [value, hparts]
    · rw [hparts] at hfinite
      exact absurd hfinite Bool.false_ne_true

/-- What a number is rounded to, with a sign. -/
theorem RoundsTo.value_carry (h : RoundsTo v r t) (hfinite : (ofParts (carry s r t)).isFinite) :
    value (ofParts (carry s r t)) = (s.apply (r : Int) : Int) * 2 ^ t := by
  have hfits := h.fits
  have hleast := h.least
  unfold carry at hfinite ⊢
  split_ifs at hfinite ⊢ with hlt
  · exact value_ofParts_assemble hlt hleast h.digits hfinite
  · obtain rfl : r = 2 ^ 53 := by omega
    rw [value_ofParts_assemble (by decide) (by omega) (.inr le_rfl) hfinite,
      zpow_add_one₀ two_ne_zero]
    cases s <;> simp [Sign.apply] <;> ring

theorem finite_cases (hx : x.isFinite) :
    (∃ s, parts x = .zero s) ∨ ∃ s m e hm, parts x = .finite s m e hm := by
  replace hx : (parts x).isFinite := hx
  cases hparts : parts x with
  | zero s => exact .inl ⟨s, rfl⟩
  | finite s m e hm => exact .inr ⟨s, m, e, hm, rfl⟩
  | _ =>
      rw [hparts] at hx
      exact absurd hx Bool.false_ne_true

/-- A quotient that is finite is near to the exact one. -/
theorem abs_value_div_sub_le (hx : x.isFinite) (hc : c.isFinite) (h0 : 0 < c)
    (hfinite : (x / c).isFinite) :
    |value (x / c) - value x / value c| ≤ errorBound (value x / value c) := by
  obtain ⟨n, f, hn, hparts⟩ := exists_parts_of_pos hc h0
  have hcell : 0 ≤ value c := value_nonneg (le_of_lt h0)
  rcases finite_cases hx with ⟨s, hpx⟩ | ⟨s, m, e, hm, hpx⟩
  · rw [value_zero hpx, value_zero (div_of_parts_zero hpx hparts), zero_div, sub_zero, abs_zero]
    exact errorBound_nonneg 0
  · obtain ⟨r, t, hdiv, hto⟩ := div_finite hpx hparts
    rw [hdiv] at hfinite
    have herror := hto.abs_sub_le (by positivity)
    rw [hdiv, hto.value_carry hfinite, value, hpx]
    cases s with
    | positive => exact herror
    | negative =>
        have hdividend : ((-(m : Int) : Int) : ℚ) * 2 ^ e / value c = -(m * 2 ^ e / value c) := by
          push_cast
          ring
        have hquotient : ((-(r : Int) : Int) : ℚ) * 2 ^ t = -(r * 2 ^ t) := by
          push_cast
          ring
        change |((-(r : Int) : Int) : ℚ) * 2 ^ t - ((-(m : Int) : Int) : ℚ) * 2 ^ e / value c| ≤
          errorBound (((-(m : Int) : Int) : ℚ) * 2 ^ e / value c)
        rw [hdividend, hquotient, neg_sub_neg, abs_sub_comm, errorBound_neg]
        exact herror

/-! Cell numbers. -/

theorem isFinite_of_isFinite_div (hx : 0 ≤ x) (hc : c.isFinite) (h0 : 0 < c)
    (h : (x / c).isFinite) : x.isFinite := by
  obtain ⟨n, f, hn, hparts⟩ := exists_parts_of_pos hc h0
  change (parts x).isFinite
  replace h : (parts (x / c)).isFinite := h
  rcases nonneg_cases (nonneg_iff.mp hx) with ⟨s, hpx⟩ | ⟨m, e, hm, hpx⟩ | hpx
  · rw [hpx]
    rfl
  · rw [hpx]
    rfl
  · rw [div_of_parts_infinity hpx hparts] at h
    exact absurd h Bool.false_ne_true

theorem cellNumber_of_isFinite (hx : x.isFinite) :
    cellNumber x = max leastCell (min greatestCell ⌊value x⌋) := by
  rw [← isSome_ofFloat?] at hx
  obtain ⟨b, hb⟩ := Option.isSome_iff_exists.mp hx
  rw [value_eq x hb, ← Binary.floor_eq, cellNumber, hb]

theorem cellNumber_mem (x : Float) : leastCell ≤ cellNumber x ∧ cellNumber x ≤ greatestCell := by
  have hends : leastCell ≤ 0 ∧ 0 ≤ greatestCell := by decide
  unfold cellNumber
  split
  · omega
  · split_ifs <;> omega

theorem isFinite_assemble_or (s : Sign) (hlt : r < 2 ^ 53) (ht : -1074 ≤ t)
    (hdigits : t = -1074 ∨ 2 ^ 52 ≤ r) :
    (ofParts (assemble s r t)).isFinite ∨ parts (ofParts (assemble s r t)) = .infinity s := by
  change (parts (ofParts (assemble s r t))).isFinite ∨ _
  rcases Nat.eq_zero_or_pos r with rfl | hr
  · rw [parts_ofParts_assemble_zero]
    exact .inl rfl
  · rw [parts_ofParts_assemble hr hlt ht hdigits]
    split
    · exact .inl rfl
    · exact .inr rfl

theorem RoundsTo.isFinite_carry_or (h : RoundsTo v r t) (s : Sign) :
    (ofParts (carry s r t)).isFinite ∨ parts (ofParts (carry s r t)) = .infinity s := by
  have hleast := h.least
  unfold carry
  split_ifs with hlt
  · exact isFinite_assemble_or s hlt hleast h.digits
  · exact isFinite_assemble_or s (by decide) (by omega) (.inr le_rfl)

theorem isFinite_div_or (hx : x.isFinite) (hc : c.isFinite) (h0 : 0 < c) :
    (x / c).isFinite ∨ ∃ s, parts (x / c) = .infinity s := by
  obtain ⟨n, f, hn, hparts⟩ := exists_parts_of_pos hc h0
  rcases finite_cases hx with ⟨s, hpx⟩ | ⟨s, m, e, hm, hpx⟩
  · change (parts (x / c)).isFinite ∨ _
    rw [div_of_parts_zero hpx hparts]
    exact .inl rfl
  · obtain ⟨r, t, hdiv, hto⟩ := div_finite hpx hparts
    rw [hdiv]
    exact (hto.isFinite_carry_or s).imp_right fun hinfinite => ⟨s, hinfinite⟩

/-- The quotient of a finite number is finite, if the number of its cell is between the ends of
the range. -/
theorem isFinite_div_of_cellNumber (hx : x.isFinite) (hc : c.isFinite) (h0 : 0 < c)
    (hlow : leastCell < cellNumber (x / c)) (hhigh : cellNumber (x / c) < greatestCell) :
    (x / c).isFinite := by
  refine (isFinite_div_or hx hc h0).resolve_right ?_
  rintro ⟨s, hinfinite⟩
  rw [← ofParts_eq hinfinite] at hlow hhigh
  cases s with
  | positive => exact absurd hhigh (by decide +kernel)
  | negative => exact absurd hlow (by decide +kernel)

/-- A radius is greater than the difference of two coordinates, all measured in cells, by more than
the errors of the three quotients come to. -/
def IsClear (c radius x y : Float) : Prop :=
  |value x / value c - value y / value c| + errorBound (value x / value c) +
    errorBound (value y / value c) + errorBound (value radius / value c) ≤ value radius / value c

instance (c radius x y : Float) : Decidable (IsClear c radius x y) :=
  inferInstanceAs (Decidable (_ ≤ _))

theorem IsClear.symm (h : IsClear c radius x y) : IsClear c radius y x := by
  unfold IsClear at h ⊢
  rw [abs_sub_comm]
  linarith

/-- Two coordinates that are clearly within a radius of each other are in cells at most as far
apart as the radius spans. -/
theorem cellNumber_div_le_add {span : Int} (hc : c.isFinite) (h0 : 0 < c) (hx : x.isFinite)
    (hxc : (x / c).isFinite) (hy : y.isFinite) (hyc : (y / c).isFinite) (hradius : 0 ≤ radius)
    (hspan : Scalar.ceil? (radius / c) = some span) (h : IsClear c radius x y) :
    cellNumber (x / c) ≤ cellNumber (y / c) + span := by
  obtain ⟨hrc, hceil⟩ := ceil?_eq_some_iff.mp hspan
  have hr := isFinite_of_isFinite_div hradius hc h0 hrc
  have hxerror := (abs_le.mp (abs_value_div_sub_le hx hc h0 hxc)).2
  have hyerror := (abs_le.mp (abs_value_div_sub_le hy hc h0 hyc)).1
  have hrerror := (abs_le.mp (abs_value_div_sub_le hr hc h0 hrc)).1
  have hsum : value (x / c) ≤ value (y / c) + value (radius / c) := by
    unfold IsClear at h
    linarith [le_abs_self (value x / value c - value y / value c)]
  have hfloor : ⌊value (x / c)⌋ ≤ ⌊value (y / c)⌋ + ⌈value (radius / c)⌉ := by
    rw [← Int.floor_add_intCast]
    exact Int.floor_le_floor (hsum.trans (add_le_add_right (Int.le_ceil _) _))
  have hnonneg := ceil?_div_nonneg hradius hc h0 hspan
  rw [cellNumber_of_isFinite hxc, cellNumber_of_isFinite hyc, ← hceil]
  omega

end Double

end Flock
