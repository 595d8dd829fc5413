import Flock.Proofs.Double.Rounding

/-!
# Sums that stay finite

The magnitude of a double is bounded by its exponent (`UpTo`): the finite doubles are those
with an exponent up to 971. What is rounded has an exponent up to `c` as long as it is less
than half of a last digit above the greatest number with that exponent (`upTo_carry`), and
so a sum is finite as long as its exact value is less than that above the greatest finite
double (`isFinite_add_of_lt`).
-/

namespace Flock

namespace Double

open Float.Model Float.Model.UnpackedFloat

variable {x y p : Float} {s t : Sign} {m n k : Nat} {e f c : Int} {hm : 0 < m} {hn : 0 < n}

/-- Zero, or a number with an exponent up to `c`. -/
def UpTo (c : Int) (x : Float) : Prop :=
  (∃ s, parts x = .zero s) ∨ ∃ s m e hm, parts x = .finite s m e hm ∧ e ≤ c

theorem lt_of_parts (hx : parts x = .finite s m e hm) : m < 2 ^ 53 ∧ e ≤ 971 := by
  have hcanonical := canonical_parts x
  rw [hx] at hcanonical
  exact ⟨hcanonical.1, hcanonical.2.2.1⟩

theorem UpTo.le_of_parts (h : UpTo c x) (hx : parts x = .finite s m e hm) : e ≤ c := by
  rcases h with ⟨_, hzero⟩ | ⟨_, _, _, _, hparts, he⟩
  · exact absurd (hzero.symm.trans hx) (by simp)
  · obtain ⟨-, -, rfl⟩ := UnpackedFloat.finite.inj (hparts.symm.trans hx)
    exact he

theorem isFinite_iff_upTo : x.isFinite ↔ UpTo 971 x := by
  change (parts x).isFinite ↔ _
  unfold UpTo
  cases hx : parts x with
  | notANumber => simp [UnpackedFloat.isFinite]
  | infinity s => simp [UnpackedFloat.isFinite]
  | zero s => simp [UnpackedFloat.isFinite]
  | finite s m e hm => simp [UnpackedFloat.isFinite, hm, (lt_of_parts hx).2]

theorem UpTo.isFinite (h : UpTo c x) (hc : c ≤ 971) : x.isFinite :=
  isFinite_iff_upTo.mpr (h.imp_right fun ⟨s, m, e, hm, hx, he⟩ => ⟨s, m, e, hm, hx, he.trans hc⟩)

theorem isFinite_neg (h : x.isFinite) : (-x).isFinite := by
  change (parts (-x)).isFinite
  rw [parts_neg]
  change (parts x).isFinite at h
  cases hparts : parts x <;> rw [hparts] at h <;> exact h

theorem abs_neg (x : Float) : (-x).abs = x.abs := by
  refine parts_injective ?_
  rw [parts_abs, parts_abs, parts_neg]
  cases parts x <;> rfl

/-- What is below a power of two in magnitude has a smaller exponent. -/
theorem abs_lt_iff_upTo {hp : 0 < 2 ^ 52} (hparts : parts p = .finite .positive (2 ^ 52) c hp)
    (hc : -1074 < c) : x.abs < p ↔ UpTo (c - 1) x := by
  rw [lt_iff, hparts, parts_abs]
  have hcanonical := canonical_parts x
  unfold UpTo
  generalize parts x = u at hcanonical ⊢
  cases u with
  | notANumber => simp [UnpackedFloat.abs, UnpackedFloat.lt, UnpackedFloat.compare]
  | infinity s => simp [UnpackedFloat.abs, UnpackedFloat.lt, UnpackedFloat.compare]
  | zero s => simp [UnpackedFloat.abs, UnpackedFloat.lt, UnpackedFloat.compare]
  | finite s m e hm =>
      have hiff : (UnpackedFloat.finite s m e hm).abs.lt (.finite .positive (2 ^ 52) c hp) ↔
          e < c ∨ e = c ∧ m < 2 ^ 52 := finite_lt_finite
      obtain ⟨-, -, -, hdigits⟩ := hcanonical
      simp only [hiff, reduceCtorEq, exists_false, false_or, UnpackedFloat.finite.injEq]
      constructor
      · intro h
        exact ⟨s, m, e, hm, ⟨rfl, rfl, rfl⟩, by omega⟩
      · rintro ⟨_, _, _, _, ⟨rfl, rfl, rfl⟩, h⟩
        omega

/-! Rounding. -/

/-- What is less than half of a last digit above the greatest number with an exponent is
rounded to one that has no greater exponent. -/
theorem upTo_carry (hn : 0 < n) (hc : -1074 ≤ c) (hle : c ≤ 971) (he : e + k = c)
    (hless : 2 * n < (2 ^ 54 - 1) * 2 ^ k) :
    UpTo c (ofParts (carry s (roundedAt n e) (target n e))) := by
  have hleast := le_target n e
  have hfloor := floorAt_lt n e
  have hraised := roundedAt_le n e
  have hhigh : target n e ≤ c := by
    have hlog : n.log2 < 53 + k := by
      refine (Nat.log2_lt (Nat.ne_of_gt hn)).mpr ?_
      rw [pow_add]
      omega
    unfold target
    omega
  unfold carry
  split
  · next hfits =>
    rcases Nat.eq_zero_or_pos (roundedAt n e) with hzero | hr
    · rw [hzero]
      exact .inl ⟨s, parts_ofParts_assemble_zero s _⟩
    · have hdigits := digits_of_floorAt_le hn (floorAt_le_roundedAt n e)
      refine .inr ⟨s, _, _, hr, ?_, hhigh⟩
      rw [parts_ofParts_assemble hr hfits hleast hdigits, if_pos (hhigh.trans hle)]
  · next hover =>
    have hlower : target n e + 1 ≤ c := by
      by_contra hgreat
      -- all digits that remain are ones, and then less than half is left over
      have hshift : (target n e - e).toNat = k := by omega
      have hnone : (e - target n e).toNat = 0 := by omega
      have hones : n / 2 ^ k = 2 ^ 53 - 1 := by
        have hdigits : floorAt n e = 2 ^ 53 - 1 := by omega
        rwa [floorAt, hshift, hnone, Nat.pow_zero, Nat.mul_one] at hdigits
      have hsplit := Nat.div_add_mod n (2 ^ k)
      rw [hones] at hsplit
      have hkept := roundedAt_eq_floorAt (n := n) (e := e) (by rw [hshift]; omega)
      omega
    refine .inr ⟨s, 2 ^ 52, _, by decide, ?_, hlower⟩
    rw [parts_ofParts_assemble (by decide) (by decide) (by omega) (.inr le_rfl),
      if_pos (hlower.trans hle)]

/-- What is half of a last digit above the greatest finite double, or more, is too great. -/
theorem not_isFinite_round (he : e + k = 971) (hmore : (2 ^ 54 - 1) * 2 ^ k ≤ 2 * n) :
    (parts (ofParts (.round .binary64 s n e))).isFinite = false := by
  have hpos : 0 < 2 ^ k := Nat.two_pow_pos k
  have hn : 0 < n := by omega
  have hlog : 52 + k ≤ n.log2 := by
    rw [Nat.le_log2 (Nat.ne_of_gt hn), pow_add]
    omega
  have htarget : 971 ≤ target n e := by
    unfold target
    omega
  have hfull := le_floorAt hn (by omega : target n e ≠ -1074)
  have infinite {r : Nat} {f : Int} (hr : 2 ^ 52 ≤ r) (hlt : r < 2 ^ 53) (hf : 972 ≤ f) :
      (parts (ofParts (assemble s r f))).isFinite = false := by
    rw [parts_ofParts_assemble (by omega) hlt (by omega) (.inr hr), if_neg (by omega)]
    rfl
  rw [round_eq s hn e, carry]
  split
  · next hfits =>
    refine infinite (hfull.trans (floorAt_le_roundedAt n e)) hfits ?_
    by_contra hlow
    -- all digits that remain are ones, and the last one is odd and would be raised
    have hshift : (target n e - e).toNat = k := by omega
    have hnone : (e - target n e).toNat = 0 := by omega
    have hfloor : floorAt n e = n / 2 ^ k := by
      rw [floorAt, hshift, hnone, Nat.pow_zero, Nat.mul_one]
    have hdigits := floorAt_lt n e
    have hsplit := Nat.div_add_mod n (2 ^ k)
    have hrest := Nat.mod_lt n hpos
    have hones : n / 2 ^ k = 2 ^ 53 - 1 := by
      by_contra hless
      have hfew : 2 ^ k * (n / 2 ^ k) ≤ 2 ^ k * (2 ^ 53 - 2) := Nat.mul_le_mul_left _ (by omega)
      omega
    rw [hones] at hsplit hfloor
    simp only [roundedAt, hfloor, hshift] at hfits
    split_ifs at hfits <;> omega
  · exact infinite le_rfl (by decide) (by omega)

theorem isFinite_normalize {a : Int} (he : e + k = 971)
    (hless : 2 * a.natAbs < (2 ^ 54 - 1) * 2 ^ k) :
    (ofParts (.normalize .binary64 a e s)).isFinite := by
  rw [isFinite_iff_upTo]
  unfold UnpackedFloat.normalize
  rcases lt_trichotomy a 0 with hneg | rfl | hpos
  · rw [Int.compare_eq_lt.mpr hneg]
    dsimp only
    rw [round_eq .negative (by omega)]
    exact upTo_carry (by omega) (by decide) le_rfl he (by omega)
  · exact .inl ⟨s, parts_ofParts_zero s⟩
  · rw [Int.compare_eq_gt.mpr hpos]
    dsimp only
    rw [round_eq .positive (by omega)]
    exact upTo_carry (by omega) (by decide) le_rfl he (by omega)

/-! Sums. -/

theorem add_of_parts (hx : parts x = .finite s m e hm) (hy : parts y = .finite t n f hn) :
    x + y = ofParts (.normalize .binary64
      (s.apply (m <<< (e - min e f).toNat : Nat) + t.apply (n <<< (f - min e f).toNat : Nat))
      (min e f) .positive) := by
  rw [add_eq, hx, hy]
  rfl

theorem natAbs_apply_add_apply (s t : Sign) (a b : Nat) :
    (s.apply (a : Int) + t.apply (b : Int)).natAbs ≤ a + b := by
  cases s <;> cases t <;> simp only [Sign.apply] <;> omega

/-- A mantissa moved down to the exponent of a sum. -/
theorem shiftLeft_le (hlt : m < 2 ^ 53) (he : e ≤ c) (g : Int) :
    m <<< (e - g).toNat ≤ (2 ^ 53 - 1) * 2 ^ (c - g).toNat := by
  rw [Nat.shiftLeft_eq]
  exact Nat.mul_le_mul (by omega) (Nat.pow_le_pow_right (by decide) (by omega))

/-- A sum is finite if its exact value is less than half of a last digit above the greatest
finite double. -/
theorem isFinite_add_of_lt (hx : x.isFinite) (hy : y.isFinite)
    (h : ∀ s m e hm t n f hn, parts x = .finite s m e hm → parts y = .finite t n f hn →
      2 * (s.apply (m <<< (e - min e f).toNat : Nat) +
        t.apply (n <<< (f - min e f).toNat : Nat) : Int).natAbs <
        (2 ^ 54 - 1) * 2 ^ (971 - min e f).toNat) : (x + y).isFinite := by
  rcases isFinite_iff_upTo.mp hx with ⟨s, hpx⟩ | ⟨s, m, e, hm, hpx, he⟩
  · rcases isFinite_iff_upTo.mp hy with ⟨t, hpy⟩ | ⟨t, n, f, hn, hpy, -⟩
    · rw [add_eq, hpx, hpy]
      cases s <;> cases t <;> rfl
    · have hsum : x + y = y := by
        rw [add_eq, hpx, hpy]
        exact ofParts_eq hpy
      rwa [hsum]
  · rcases isFinite_iff_upTo.mp hy with ⟨t, hpy⟩ | ⟨t, n, f, hn, hpy, -⟩
    · have hsum : x + y = x := by
        rw [add_eq, hpx, hpy]
        exact ofParts_eq hpx
      rwa [hsum]
    · rw [add_of_parts hpx hpy]
      exact isFinite_normalize (by omega) (h s m e hm t n f hn hpx hpy)

theorem sub_eq (x y : Float) : x - y = ofParts (.sub .binary64 (parts x) (parts y)) := rfl

/-- A difference is a sum with a negative. -/
theorem sub_eq_add_neg (x y : Float) : x - y = x + -y := by
  have hparts (u v : UnpackedFloat) :
      UnpackedFloat.sub .binary64 u v = UnpackedFloat.add .binary64 u v.neg := by
    cases u with
    | notANumber => rfl
    | infinity s => cases v <;> rfl
    | zero s => cases v <;> rfl
    | finite s m e hm => cases v with
      | finite t n f hn =>
          have hsign (a : Int) : (-t).apply a = -t.apply a := by cases t <;> simp [Sign.apply]
          simp only [UnpackedFloat.sub, UnpackedFloat.add, UnpackedFloat.neg, hsign,
            Int.sub_eq_add_neg]
      | _ => rfl
  rw [sub_eq, add_eq, parts_neg, hparts]

theorem sub_neg_eq_add (x y : Float) : x - -y = x + y := by
  have hneg : - -y = y := by
    refine parts_injective ?_
    rw [parts_neg, parts_neg]
    cases parts y with
    | notANumber => rfl
    | infinity s => cases s <;> rfl
    | zero s => cases s <;> rfl
    | finite s m e hm => cases s <;> rfl
  rw [sub_eq_add_neg, hneg]

end Double

end Flock
