import Flock.Decimal.Layout
import Flock.Decimal.Reader
import Flock.Proofs.Decimal.Interval
import Flock.Proofs.Double.Exact

/-!
# Texts of doubles

A plain text is made of digits and at most one point, and it reads as the value of the decimal that
it was made from (`exists_magnitude?_plain`). So two finite doubles with the same plain text are
the same, zeros of different signs included (`render_inj`).
-/

namespace Flock

namespace Decimal

variable {c : Char} {digits whole places : List Char} {n : Nat}

theorem isDigit_of_mem_digitsOf (h : c ∈ digitsOf n) : isDigit c :=
  Nat.isDigit_of_mem_toDigits (by decide) le_rfl h

theorem ofDigits_digitsOf (n : Nat) : ofDigits (digitsOf n) = n :=
  Nat.ofDigitChars_toDigits (by decide) le_rfl

theorem ofDigits_append_zeros (digits : List Char) (k : Nat) :
    ofDigits (digits ++ List.replicate k '0') = ofDigits digits * 10 ^ k := by
  induction k with
  | zero => simp
  | succ k ih =>
      rw [List.replicate_succ', ← List.append_assoc, ofDigits, List.foldl_append, ← ofDigits, ih]
      rw [Nat.pow_succ]
      change 10 * (ofDigits digits * 10 ^ k) + 0 = _
      ring

theorem ofDigits_zeros_append (k : Nat) (digits : List Char) :
    ofDigits (List.replicate k '0' ++ digits) = ofDigits digits := by
  induction k with
  | zero => rfl
  | succ k ih => exact ih

/-- A row of digits is read as a whole number. -/
theorem magnitude?_whole (hne : whole ≠ []) (h : ∀ c ∈ whole, isDigit c) :
    magnitude? whole = some ⟨ofDigits whole, 0⟩ := by
  have htake : whole.takeWhile isDigit = whole := List.takeWhile_eq_self_iff.mpr h
  have hdrop : whole.dropWhile isDigit = [] := List.dropWhile_eq_nil_iff.mpr h
  simp [magnitude?, htake, hdrop, hne, exponent?]

theorem magnitude?_point (hne : whole ≠ []) (h : ∀ c ∈ whole, isDigit c)
    (h' : ∀ c ∈ places, isDigit c) :
    magnitude? (whole ++ '.' :: places) = some ⟨ofDigits (whole ++ places), -places.length⟩ := by
  have hpoint : isDigit '.' = false := rfl
  have htake : (whole ++ '.' :: places).takeWhile isDigit = whole := by
    rw [List.takeWhile_append_of_pos h, List.takeWhile_cons_of_neg (by simp [hpoint]),
      List.append_nil]
  have hdrop : (whole ++ '.' :: places).dropWhile isDigit = '.' :: places := by
    rw [List.dropWhile_append_of_pos h, List.dropWhile_cons_of_neg (by simp [hpoint])]
  have htake' : places.takeWhile isDigit = places := List.takeWhile_eq_self_iff.mpr h'
  have hdrop' : places.dropWhile isDigit = [] := List.dropWhile_eq_nil_iff.mpr h'
  simp [magnitude?, htake, hdrop, htake', hdrop', hne, exponent?]

/-- What a text without an exponent looks like: digits, or digits around a point. -/
inductive Written (v : ℚ) : List Char → Prop where
  | whole {whole : List Char} (hne : whole ≠ []) (h : ∀ c ∈ whole, isDigit c)
      (hvalue : (ofDigits whole : ℚ) = v) : Written v whole
  | point {whole places : List Char} (hne : whole ≠ []) (h : ∀ c ∈ whole, isDigit c)
      (h' : ∀ c ∈ places, isDigit c)
      (hvalue : (ofDigits (whole ++ places) : ℚ) * 10 ^ (-places.length : Int) = v) :
      Written v (whole ++ '.' :: places)

theorem written_plain (d : Decimal) : Written d.value (Layout.plain.decimal d) := by
  have hdigits : ∀ c ∈ digitsOf d.digits, isDigit c := fun c hc => isDigit_of_mem_digitsOf hc
  have hzeros (k : Nat) : ∀ c ∈ List.replicate k '0', isDigit c := fun c hc => by
    rw [List.eq_of_mem_replicate hc]
    rfl
  have hne : digitsOf d.digits ≠ [] := Nat.toDigits_ne_nil
  have hread := ofDigits_digitsOf d.digits
  have htext : Layout.plain.decimal d = Layout.plain.positional (digitsOf d.digits) d.exponent :=
    if_pos (.inr rfl)
  have hnone : (if Layout.plain.keepsPoint then ['.', '0'] else []) = ([] : List Char) := rfl
  rw [htext, Layout.positional, hnone]
  generalize digitsOf d.digits = digits at hdigits hne hread
  split_ifs with hwhole hpoint
  · obtain ⟨k, hk⟩ := Int.eq_ofNat_of_zero_le hwhole
    rw [List.append_nil, hk, Int.toNat_natCast]
    refine .whole (by simp [hne]) (List.forall_mem_append.mpr ⟨hdigits, hzeros k⟩) ?_
    rw [ofDigits_append_zeros, hread, value, hk, zpow_natCast]
    push_cast
    rfl
  · have hlength : digits.length - (digits.length + d.exponent).toNat = (-d.exponent).toNat := by
      omega
    refine .point ?_ (fun c hc => hdigits c (List.mem_of_mem_take hc))
      (fun c hc => hdigits c (List.mem_of_mem_drop hc)) ?_
    · rw [Ne, List.take_eq_nil_iff]
      simp only [hne, or_false]
      omega
    · rw [List.take_append_drop, hread, List.length_drop, hlength, Int.toNat_of_nonneg (by omega),
        Int.neg_neg]
      rfl
  · have hlength : ((List.replicate (-(digits.length + d.exponent)).toNat '0' ++
        digits).length : Int) = -d.exponent := by
      rw [List.length_append, List.length_replicate]
      omega
    change Written d.value (['0'] ++ '.' :: _)
    refine .point (List.cons_ne_nil _ _) (hzeros 1)
      (List.forall_mem_append.mpr ⟨hzeros _, hdigits⟩) ?_
    have hzero := ofDigits_zeros_append ((-(digits.length + d.exponent)).toNat + 1) digits
    rw [List.replicate_succ, List.cons_append] at hzero
    rw [hlength, List.singleton_append, hzero, hread, Int.neg_neg]
    rfl

/-- Plain texts are made of digits and points. -/
theorem mem_plain (d : Decimal) (h : c ∈ Layout.plain.decimal d) : isDigit c ∨ c = '.' := by
  have hwritten := written_plain d
  generalize Layout.plain.decimal d = text at hwritten h
  cases hwritten with
  | whole hne hdigits _ => exact .inl (hdigits c h)
  | point hne hdigits hdigits' _ =>
      rcases List.mem_append.mp h with h | h
      · exact .inl (hdigits c h)
      · exact (List.mem_cons.mp h).elim .inr fun h => .inl (hdigits' c h)

/-- A plain text is read as the value of the decimal that it is made from. -/
theorem exists_magnitude?_plain (d : Decimal) :
    ∃ read, magnitude? (Layout.plain.decimal d) = some read ∧ read.value = d.value := by
  have hwritten := written_plain d
  generalize Layout.plain.decimal d = text at hwritten
  cases hwritten with
  | whole hne hdigits hvalue =>
      refine ⟨_, magnitude?_whole hne hdigits, ?_⟩
      rw [← hvalue, value, zpow_zero, mul_one]
  | point hne hdigits hdigits' hvalue => exact ⟨_, magnitude?_point hne hdigits hdigits', hvalue⟩

end Decimal

namespace Double

open Float.Model Float.Model.UnpackedFloat

variable {x y : Float} {b : Binary}

theorem isDouble_of_ofFloat? (h : Binary.ofFloat? x = some b) : b.IsDouble := by
  have hcanonical := canonical_parts x
  rw [ofFloat?_eq] at h
  generalize parts x = u at h hcanonical
  cases u with
  | notANumber => exact absurd h (by simp [binary?])
  | infinity s => exact absurd h (by simp [binary?])
  | zero s =>
      obtain rfl := Option.some.inj h
      exact ⟨Nat.two_pow_pos 53, le_rfl, .inl rfl⟩
  | finite s m e hm =>
      obtain rfl := Option.some.inj h
      exact ⟨hcanonical.1, hcanonical.2.1, hcanonical.2.2.2⟩

/-- The exact value of a double, with the sign of a zero, has all of its parts. -/
theorem eq_assemble {u : UnpackedFloat} (h : binary? u = some b) :
    u = assemble (if b.negative then .negative else .positive) b.mantissa b.exponent := by
  cases u with
  | notANumber => exact absurd h (by simp [binary?])
  | infinity s => exact absurd h (by simp [binary?])
  | zero s =>
      obtain rfl := Option.some.inj h
      cases s <;> rfl
  | finite s m e hm =>
      obtain rfl := Option.some.inj h
      rw [assemble, dif_neg hm.ne']
      cases s <;> rfl

theorem ofFloat?_inj (hx : Binary.ofFloat? x = some b) (hy : Binary.ofFloat? y = some b) :
    x = y := by
  rw [ofFloat?_eq] at hx hy
  exact parts_injective ((eq_assemble hx).trans (eq_assemble hy).symm)

theorem exists_ofFloat? (hx : x.isFinite) : ∃ b, Binary.ofFloat? x = some b := by
  rw [← isSome_ofFloat?] at hx
  exact Option.isSome_iff_exists.mp hx

/-- A plain text has a sign, and then the digits of the shortest decimal. -/
theorem toList_render (h : Binary.ofFloat? x = some b) :
    (Layout.plain.render x).toList =
      (if b.negative then ['-'] else []) ++ Layout.plain.decimal (Decimal.shortest .up b) := by
  rw [Layout.render, h]
  dsimp only
  split_ifs
  · rw [String.toList_append]
    exact congrArg (['-'] ++ ·) String.toList_ofList
  · exact String.toList_ofList

/-- The characters that numbers are written with. -/
theorem mem_render {c : Char} (hx : x.isFinite) (h : c ∈ (Layout.plain.render x).toList) :
    Decimal.isDigit c ∨ c = '.' ∨ c = '-' := by
  obtain ⟨b, hb⟩ := exists_ofFloat? hx
  rw [toList_render hb, List.mem_append] at h
  rcases h with h | h
  · split_ifs at h
    · exact .inr (.inr (List.mem_singleton.mp h))
    · exact absurd h (by simp)
  · exact (Decimal.mem_plain _ h).imp_right .inl

/-- Two finite doubles with the same plain text are the same. -/
theorem render_inj (hx : x.isFinite) (hy : y.isFinite)
    (h : Layout.plain.render x = Layout.plain.render y) : x = y := by
  obtain ⟨b, hb⟩ := exists_ofFloat? hx
  obtain ⟨c, hc⟩ := exists_ofFloat? hy
  have htext := congrArg String.toList h
  rw [toList_render hb, toList_render hc] at htext
  -- only a sign is written with a minus
  have hminus (b : Binary) : '-' ∈ (if b.negative then ['-'] else []) ++
      Layout.plain.decimal (Decimal.shortest .up b) ↔ b.negative = true := by
    have hunsigned : '-' ∉ Layout.plain.decimal (Decimal.shortest .up b) := fun hmem => by
      rcases Decimal.mem_plain _ hmem with hdigit | hpoint
      · exact absurd hdigit (by decide)
      · exact absurd hpoint (by decide)
    split_ifs with hnegative <;> simp [hnegative, hunsigned]
  have hsign : b.negative = c.negative := by
    rw [Bool.eq_iff_iff, ← hminus b, ← hminus c, htext]
  rw [hsign] at htext
  have hplain := List.append_cancel_left htext
  obtain ⟨read, hread, hvalue⟩ := Decimal.exists_magnitude?_plain (Decimal.shortest .up b)
  obtain ⟨read', hread', hvalue'⟩ := Decimal.exists_magnitude?_plain (Decimal.shortest .up c)
  rw [hplain] at hread
  obtain rfl := Option.some.inj (hread.symm.trans hread')
  obtain ⟨hmantissa, hexponent⟩ := Binary.eq_of_value_shortest_eq (isDouble_of_ofFloat? hb)
    (isDouble_of_ofFloat? hc) (hvalue.symm.trans hvalue')
  obtain ⟨negative, mantissa, exponent⟩ := b
  obtain rfl : Binary.mk negative mantissa exponent = c := by
    cases c
    cases hsign
    cases hmantissa
    cases hexponent
    rfl
  exact ofFloat?_inj hb hc

end Double

end Flock
